import Mathlib.Algebra.Group.Nat.Defs
import SkynetServer.Harbor.Service

/-!
# The bytes on a link between two harbors

A message that `skynet_send` passes to the harbor is written to the link
behind its length, which has four bytes, the high one first.  The harbor at
the other end reads the length in `push_socket_data` and forwards the message
to a service of its node; it closes the link when the first of the four bytes
is not 0.
-/

namespace SkynetServer.HarborLink

open Harbor

/-! ## Numbers -/

/-- `to_bigendian` -/
def toBigendian (n : BitVec 32) : List UInt8 :=
  [⟨((n >>> 24) &&& 0xff#32).setWidth 8⟩,
    ⟨((n >>> 16) &&& 0xff#32).setWidth 8⟩,
    ⟨((n >>> 8) &&& 0xff#32).setWidth 8⟩,
    ⟨(n &&& 0xff#32).setWidth 8⟩]

/-- `from_bigendian` of the word with these bytes. -/
def fromBigendian (b₀ b₁ b₂ b₃ : UInt8) : BitVec 32 :=
  b₀.toBitVec.setWidth 32 <<< 24 ||| b₁.toBitVec.setWidth 32 <<< 16 |||
    b₂.toBitVec.setWidth 32 <<< 8 ||| b₃.toBitVec.setWidth 32

/-- `HEADER_COOKIE_LENGTH` -/
def headerCookieLength : ℕ := 12

/-- `header_to_message` -/
def headerToMessage (header : RemoteMessageHeader) : List UInt8 :=
  toBigendian header.source ++ toBigendian header.destination ++
    toBigendian header.session

/-- `message_to_header` of the twelve bytes at the pointer. -/
def messageToHeader : List UInt8 → Option RemoteMessageHeader
  | [a₀, a₁, a₂, a₃, b₀, b₁, b₂, b₃, c₀, c₁, c₂, c₃] =>
    some ⟨fromBigendian a₀ a₁ a₂ a₃, fromBigendian b₀ b₁ b₂ b₃,
      fromBigendian c₀ c₁ c₂ c₃⟩
  | _ => none

/-! ## Sending -/

/-- `MESSAGE_TYPE_SHIFT`; a `size_t` has 64 bits. -/
def messageTypeShift : ℕ := 56

/-- `MESSAGE_TYPE_MASK` -/
def messageTypeMask : ℕ := 2 ^ messageTypeShift - 1

/-- `PTYPE_TAG_ALLOCSESSION` -/
def tagAllocSession : BitVec 32 := 0x20000#32

/-- `PTYPE_SYSTEM` and `PTYPE_HARBOR` -/
def ptypeSystem : BitVec 8 := 4#8

def ptypeHarbor : BitVec 8 := 5#8

/-- A call of `skynet_send`, with the handle of its context and the session
that `skynet_context_newsession` would return. -/
structure Send where
  handle : Handle
  newSession : BitVec 32
  source : Handle
  destination : Handle
  type : BitVec 32
  session : BitVec 32
  data : List UInt8

/-- `struct remote_message` to a handle, with the source and the session of
the call of `skynet_harbor_send`. -/
structure RemoteMessage where
  destination : Handle
  message : List UInt8
  sz : ℕ
  type : BitVec 8
  source : Handle
  session : BitVec 32
  deriving DecidableEq, Repr

/-- `skynet_harbor_message_isremote`, in the harbor with the id. -/
def isRemote (id : BitVec 8) (handle : Handle) : Bool :=
  let h := handle &&& ~~~handleMask
  h != typeBits id && h != 0

/-- The session that `_filter_args` leaves. -/
def Send.filterSession (a : Send) : BitVec 32 :=
  if a.type &&& tagAllocSession ≠ 0 then a.newSession else a.session

/-- The size that `_filter_args` leaves, with the type in its high byte. -/
def Send.filterSz (a : Send) : ℕ :=
  a.data.length ||| (a.type &&& 0xff#32).toNat <<< messageTypeShift

/-- The source of the message, the own handle if it is 0. -/
def Send.origin (a : Send) : Handle :=
  if a.source = 0 then a.handle else a.source

/-- `skynet_send`, as far as it calls `skynet_harbor_send`. -/
def skynetSend (id : BitVec 8) (a : Send) : Option RemoteMessage :=
  if a.data.length &&& messageTypeMask ≠ a.data.length then none
  else if a.destination = 0 then none
  else if isRemote id a.destination then
    let type := BitVec.ofNat 8 (a.filterSz >>> messageTypeShift)
    -- the assertion of `skynet_harbor_send`
    if type = ptypeSystem ∨ type = ptypeHarbor then none
    else some
      { destination := a.destination
        message := a.data
        sz := a.filterSz &&& messageTypeMask
        type := type
        source := a.origin
        session := a.filterSession }
  else none

/-- `skynet_socket_send`: the size is an `int`, and a negative one does not
mean a buffer. -/
def skynetSocketSend (buffer : List UInt8) (sz : ℕ) : Option (List UInt8) :=
  let n := (BitVec.ofNat 32 sz).toInt
  if n < 0 then none else some (buffer.take n.toNat)

/-- `send_remote`: the bytes written to the link, if any. -/
def sendRemote (buffer : List UInt8) (sz : ℕ) (cookie : RemoteMessageHeader) :
    Option (List UInt8) :=
  let szHeader := sz + headerCookieLength
  if szHeader > 0xffffffff then none
  else
    skynetSocketSend (toBigendian (BitVec.ofNat 32 szHeader) ++
      buffer.take sz ++ headerToMessage cookie) (szHeader + 4)

/-- The header that `remote_send_handle` makes. -/
def RemoteMessage.cookie (m : RemoteMessage) : RemoteMessageHeader :=
  ⟨m.source, (m.destination &&& handleMask) ||| typeBits m.type, m.session⟩

/-- `remote_send_handle` on a link that is up. -/
def remoteSendHandle (m : RemoteMessage) : Option (List UInt8) :=
  sendRemote m.message m.sz m.cookie

/-! ## Receiving -/

/-- What `struct slave` keeps of the package it is receiving: `size` and
`recvBuffer` hold the `s->read` bytes that have arrived. -/
structure Receiver where
  status : Status
  size : List UInt8
  length : ℕ
  recvBuffer : List UInt8
  size_lt : size.length < 4
  length_lt : length < 2 ^ 24
  recvBuffer_le : recvBuffer.length ≤ length

/-- A call of `skynet_send` in `forward_local_messsage`. -/
structure LocalMessage where
  source : Handle
  destination : Handle
  type : BitVec 8
  session : BitVec 32
  msg : List UInt8
  deriving DecidableEq, Repr

/-- `forward_local_messsage` in the harbor with the id.  A package that is
shorter than a header would be read from before its buffer. -/
def forwardLocalMesssage (id : BitVec 8) (msg : List UInt8) :
    Option LocalMessage :=
  if msg.length < headerCookieLength then none
  else
    let sz := msg.length - headerCookieLength
    match messageToHeader (msg.drop sz) with
    | none => none
    | some header =>
      some
        { source := header.source
          destination := (header.destination &&& handleMask) ||| typeBits id
          type := typeOf header.destination
          session := header.session
          msg := msg.take sz }

/-- `s->size[1] << 16 | s->size[2] << 8 | s->size[3]` -/
def packageLength (b₁ b₂ b₃ : UInt8) : ℕ :=
  b₁.toNat <<< 16 ||| b₂.toNat <<< 8 ||| b₃.toNat

theorem packageLength_eq (b₁ b₂ b₃ : UInt8) :
    packageLength b₁ b₂ b₃ =
      b₁.toNat * 2 ^ 16 + b₂.toNat * 2 ^ 8 + b₃.toNat := by
  have h₂ := b₂.toNat_lt
  have h₃ := b₃.toNat_lt
  have hlow : b₂.toNat <<< 8 ||| b₃.toNat = b₂.toNat <<< 8 + b₃.toNat :=
    (Nat.shiftLeft_add_eq_or_of_lt h₃ _).symm
  have hlt : b₂.toNat <<< 8 + b₃.toNat < 2 ^ 16 := by
    rw [Nat.shiftLeft_eq]
    omega
  rw [packageLength, Nat.or_assoc, hlow,
    ← Nat.shiftLeft_add_eq_or_of_lt hlt, Nat.shiftLeft_eq, Nat.shiftLeft_eq]
  omega

theorem packageLength_lt (b₁ b₂ b₃ : UInt8) :
    packageLength b₁ b₂ b₃ < 2 ^ 24 := by
  have h₁ := b₁.toNat_lt
  have h₂ := b₂.toNat_lt
  have h₃ := b₃.toNat_lt
  rw [packageLength_eq]
  omega

namespace Receiver

/-- `close_harbor` -/
def closeHarbor (s : Receiver) : Receiver := { s with status := .down }

/-- A receiver that waits for the length of the next package. -/
def waiting : Receiver where
  status := .header
  size := []
  length := 0
  recvBuffer := []
  size_lt := by decide
  length_lt := by decide
  recvBuffer_le := by decide

/-- The case `STATUS_HEADER` when not all four bytes have arrived. -/
def readSize (s : Receiver) (buffer : List UInt8)
    (h : buffer.length < 4 - s.size.length) : Receiver :=
  { s with
    size := s.size ++ buffer
    size_lt := by
      rw [List.length_append]
      omega }

/-- The case `STATUS_HEADER` when the length is complete. -/
def startContent (b₁ b₂ b₃ : UInt8) : Receiver where
  status := .content
  size := []
  length := packageLength b₁ b₂ b₃
  recvBuffer := []
  size_lt := by decide
  length_lt := packageLength_lt b₁ b₂ b₃
  recvBuffer_le := Nat.zero_le _

/-- The case `STATUS_CONTENT` when the package is not complete. -/
def readContent (s : Receiver) (buffer : List UInt8)
    (h : buffer.length < s.length - s.recvBuffer.length) : Receiver :=
  { s with
    recvBuffer := s.recvBuffer ++ buffer
    recvBuffer_le := by
      rw [List.length_append]
      omega }

/-- The case `STATUS_CONTENT` when the package is complete. -/
def endContent (s : Receiver) : Receiver :=
  { s with
    status := .header
    length := 0
    recvBuffer := []
    length_lt := by decide
    recvBuffer_le := by decide }

/-- The receiver and the messages it has forwarded. -/
def andThen (m : LocalMessage) :
    Option (Receiver × List LocalMessage) →
      Option (Receiver × List LocalMessage) :=
  Option.map fun r => (r.1, m :: r.2)

/-- The loop of `push_socket_data` of the harbor `id`, for the link to the
harbor `remote`.  It is undefined when it reads outside of a buffer. -/
def pushSocketData (id : BitVec 8) (remote : ℕ) (s : Receiver)
    (buffer : List UInt8) : Option (Receiver × List LocalMessage) :=
  match _h : s.status with
  | .handshake =>
    match buffer with
    | [] => none
    | remoteId :: buffer =>
      -- check id
      if remoteId.toNat ≠ remote then some (s.closeHarbor, [])
      else pushSocketData id remote { s with status := .header } buffer
  | .header =>
    if h : buffer.length < 4 - s.size.length then
      some (s.readSize buffer h, [])
    else
      match s.size ++ buffer.take (4 - s.size.length) with
      | [b₀, b₁, b₂, b₃] =>
        if b₀ ≠ 0 then some (s.closeHarbor, [])
        else
          let rest := buffer.drop (4 - s.size.length)
          if rest.length = 0 then some (startContent b₁ b₂ b₃, [])
          else pushSocketData id remote (startContent b₁ b₂ b₃) rest
      | _ => none
  | .content =>
    let need := s.length - s.recvBuffer.length
    if h : buffer.length < need then some (s.readContent buffer h, [])
    else
      match forwardLocalMesssage id (s.recvBuffer ++ buffer.take need) with
      | none => none
      | some m =>
        let rest := buffer.drop need
        if rest.length = 0 then some (s.endContent, [m])
        else andThen m (pushSocketData id remote s.endContent rest)
  | .wait | .down => some (s, [])
termination_by (buffer.length, if s.status = .content then 1 else 0)
decreasing_by
  · exact Prod.Lex.left _ _ (Nat.lt_succ_self _)
  · apply Prod.Lex.left
    have hsize := s.size_lt
    rw [List.length_drop]
    omega
  · rcases Nat.lt_or_ge (buffer.drop need).length buffer.length with hlt | hge
    · exact Prod.Lex.left _ _ hlt
    · have heq : (buffer.drop need).length = buffer.length := by
        rw [List.length_drop] at hge ⊢
        omega
      rw [heq]
      apply Prod.Lex.right
      rw [if_pos _h]
      exact Nat.zero_lt_one

section Cases

variable {id : BitVec 8} {remote : ℕ} {s : Receiver} {buffer : List UInt8}

theorem pushSocketData_readSize
    (hstatus : s.status = .header) (h : buffer.length < 4 - s.size.length) :
    pushSocketData id remote s buffer = some (s.readSize buffer h, []) := by
  rw [pushSocketData.eq_def]
  split
  · simp_all
  · rw [dif_pos h]
  all_goals simp_all

theorem pushSocketData_startContent
    (hstatus : s.status = .header) {b₁ b₂ b₃ : UInt8} {rest : List UInt8}
    (hbuffer : s.size ++ buffer = 0 :: b₁ :: b₂ :: b₃ :: rest)
    (hlen : ¬ buffer.length < 4 - s.size.length) :
    pushSocketData id remote s buffer =
      if rest.length = 0 then some (startContent b₁ b₂ b₃, [])
      else pushSocketData id remote (startContent b₁ b₂ b₃) rest := by
  have hsize := s.size_lt
  have htake : s.size ++ buffer.take (4 - s.size.length) =
      [0, b₁, b₂, b₃] := by
    have h := congrArg (List.take 4) hbuffer
    rwa [List.take_append, List.take_of_length_le (by omega)] at h
  have hdrop : buffer.drop (4 - s.size.length) = rest := by
    have h := congrArg (List.drop 4) hbuffer
    rwa [List.drop_append, List.drop_eq_nil_of_le (by omega),
      List.nil_append] at h
  rw [pushSocketData.eq_def]
  split
  · simp_all
  · rw [dif_neg hlen, htake]
    dsimp only
    rw [if_neg (fun h => h rfl), hdrop]
  all_goals simp_all

theorem pushSocketData_readContent
    (hstatus : s.status = .content)
    (h : buffer.length < s.length - s.recvBuffer.length) :
    pushSocketData id remote s buffer = some (s.readContent buffer h, []) := by
  rw [pushSocketData.eq_def]
  split
  · simp_all
  · simp_all
  · rw [dif_pos h]
  all_goals simp_all

theorem pushSocketData_endContent
    (hstatus : s.status = .content) {content rest : List UInt8}
    (hbuffer : s.recvBuffer ++ buffer = content ++ rest)
    (hlen : s.length = content.length) {m : LocalMessage}
    (hm : forwardLocalMesssage id content = some m)
    (h : ¬ buffer.length < s.length - s.recvBuffer.length) :
    pushSocketData id remote s buffer =
      if rest.length = 0 then some (s.endContent, [m])
      else andThen m (pushSocketData id remote s.endContent rest) := by
  have hle := s.recvBuffer_le
  have htake : s.recvBuffer ++
      buffer.take (s.length - s.recvBuffer.length) = content := by
    have h := congrArg (List.take s.length) hbuffer
    rw [List.take_append, List.take_of_length_le hle, hlen,
      List.take_left] at h
    rwa [hlen]
  have hdrop : buffer.drop (s.length - s.recvBuffer.length) = rest := by
    have h := congrArg (List.drop s.length) hbuffer
    rw [List.drop_append, List.drop_eq_nil_of_le hle, List.nil_append, hlen,
      List.drop_left] at h
    rwa [hlen]
  rw [pushSocketData.eq_def]
  split
  · simp_all
  · simp_all
  · dsimp only
    rw [dif_neg h, htake, hm, hdrop]
  all_goals simp_all

end Cases

/-- The data of a socket, in the chunks in which it arrives. -/
def feed (id : BitVec 8) (remote : ℕ) :
    Receiver → List (List UInt8) → Option (Receiver × List LocalMessage)
  | s, [] => some (s, [])
  | s, chunk :: chunks =>
    match pushSocketData id remote s chunk with
    | none => none
    | some (s, ms) =>
      (feed id remote s chunks).map fun r => (r.1, ms ++ r.2)

end Receiver

end SkynetServer.HarborLink
