import SkynetServer.Support.LittleEndian
import SkynetServer.Support.Parts

/-!
# Packing of cluster messages, `lua-cluster.c`

A request or a response is one package or, when it is long, a main package
and parts.  A package starts with its size in two bytes, the high one first,
which the gate or the channel takes off; the numbers inside have four bytes,
the low one first.
-/

namespace SkynetServer.Cluster

open LittleEndian

/-- `MULTI_PART` -/
def multiPart : ℕ := 0x8000

theorem multiPart_pos : 0 < multiPart := by decide

/-- The address of a request: a Lua integer, of which 32 bits are sent, or a
name. -/
inductive Address where
  | handle (handle : BitVec 32)
  | name (name : List UInt8)
  deriving DecidableEq, Repr

/-- Why a package is not made or not read. -/
inductive Failure where
  | invalidSession (session : ℤ)
  | nameTooLong (name : List UInt8)
  | invalidMessage (size : ℕ)
  | multiRequestSize (size : ℕ)
  | invalidPart
  | invalidType (type : UInt8)
  deriving DecidableEq, Repr

/-- `fill_uint32` -/
def fillUint32 (n : ℕ) : List UInt8 := bytes 4 n

/-- `fill_header` -/
def fillHeader (sz : ℕ) : List UInt8 := [UInt8.ofNat (sz >>> 8), UInt8.ofNat sz]

/-- `unpack_uint32` of the bytes at the offset. -/
def unpackUint32 (buf : List UInt8) (offset : ℕ) : ℕ :=
  number ((buf.drop offset).take 4)

/-- An element of an array of parts: the size of the whole, or bytes. -/
inductive Item where
  | size (n : ℕ)
  | msg (s : List UInt8)
  deriving DecidableEq, Repr

/-! ## Requests -/

/-- `packreq_number`: the package, and the number of parts that follow. -/
def packreqNumber (addr : BitVec 32) (session : ℕ) (msg : List UInt8)
    (isPush : Bool) : List UInt8 × ℕ :=
  let sz := msg.length
  if sz < multiPart then
    (fillHeader (sz + 9) ++ [0] ++ fillUint32 addr.toNat ++
      fillUint32 (if isPush then 0 else session) ++ msg, 0)
  else
    (fillHeader 13 ++ [if isPush then 0x41 else 1] ++ fillUint32 addr.toNat ++
      fillUint32 session ++ fillUint32 sz, Parts.count multiPart sz)

/-- `packreq_string` -/
def packreqString (name : List UInt8) (session : ℕ) (msg : List UInt8)
    (isPush : Bool) : Except Failure (List UInt8 × ℕ) :=
  let namelen := name.length
  let sz := msg.length
  if namelen < 1 ∨ namelen > 255 then .error (.nameTooLong name)
  else if sz < multiPart then
    .ok (fillHeader (sz + 6 + namelen) ++ [0x80, UInt8.ofNat namelen] ++ name ++
      fillUint32 (if isPush then 0 else session) ++ msg, 0)
  else
    .ok (fillHeader (10 + namelen) ++
      [if isPush then 0xc1 else 0x81, UInt8.ofNat namelen] ++ name ++
      fillUint32 session ++ fillUint32 sz, Parts.count multiPart sz)

/-- A package of `packreq_multi`. -/
def packPart (session : ℕ) (part : Bool × List UInt8) : List UInt8 :=
  fillHeader (part.2.length + 5) ++ [if part.1 then 2 else 3] ++
    fillUint32 session ++ part.2

/-- `packreq_multi` -/
def packreqMulti (session : ℕ) (msg : List UInt8) : List (List UInt8) :=
  (Parts.cut multiPart (Parts.count multiPart msg.length) msg).map
    (packPart session)

/-- What `packrequest` returns: the request, the session of the next one, and
the parts. -/
structure Packed where
  request : List UInt8
  session : ℕ
  parts : List (List UInt8)
  deriving DecidableEq, Repr

/-- `packrequest`.  The message has less than 2^32 bytes and the session is an
`int`. -/
def packrequest (addr : Address) (session : ℤ) (msg : List UInt8)
    (isPush : Bool) : Except Failure Packed :=
  if session ≤ 0 then .error (.invalidSession session)
  else
    let session := session.toNat
    let packed : Except Failure (List UInt8 × ℕ) :=
      match addr with
      | .handle handle => .ok (packreqNumber handle session msg isPush)
      | .name name => packreqString name session msg isPush
    let newSession := if session + 1 > 2 ^ 31 - 1 then 1 else session + 1
    packed.map fun (request, multipak) =>
      ⟨request, newSession,
        if multipak ≠ 0 then packreqMulti session msg else []⟩

/-- What `unpackrequest` returns.  The address of a part is `false`, and the
main package of parts has no message but a size. -/
inductive Unpacked where
  | request (addr : Option Address) (session : ℕ) (msg : Option (List UInt8))
      (sz : ℕ) (padding isPush : Bool)
  | trace (tag : List UInt8)
  deriving DecidableEq, Repr

/-- `unpackreq_number` -/
def unpackreqNumber (buf : List UInt8) : Except Failure Unpacked :=
  if buf.length < 9 then .error (.invalidMessage buf.length)
  else
    let address := BitVec.ofNat 32 (unpackUint32 buf 1)
    let session := unpackUint32 buf 5
    .ok (.request (some (.handle address)) session (some (buf.drop 9))
      (buf.length - 9) false (session = 0))

/-- `unpackmreq_number` -/
def unpackmreqNumber (buf : List UInt8) (isPush : Bool) :
    Except Failure Unpacked :=
  if buf.length ≠ 13 then .error (.multiRequestSize buf.length)
  else
    let address := BitVec.ofNat 32 (unpackUint32 buf 1)
    let session := unpackUint32 buf 5
    let size := unpackUint32 buf 9
    .ok (.request (some (.handle address)) session none size true isPush)

/-- `unpackmreq_part` -/
def unpackmreqPart (buf : List UInt8) : Except Failure Unpacked :=
  if buf.length < 5 then .error .invalidPart
  else
    let padding := buf.headD 0 = 2
    let session := unpackUint32 buf 1
    .ok (.request none session (some (buf.drop 5)) (buf.length - 5) padding
      false)

/-- `unpacktrace` -/
def unpacktrace (buf : List UInt8) : Except Failure Unpacked :=
  .ok (.trace (buf.drop 1))

/-- `unpackreq_string` -/
def unpackreqString (buf : List UInt8) : Except Failure Unpacked :=
  if buf.length < 2 then .error (.invalidMessage buf.length)
  else
    let namesz := ((buf.drop 1).headD 0).toNat
    if buf.length < namesz + 6 then .error (.invalidMessage buf.length)
    else
      let name := (buf.drop 2).take namesz
      let session := unpackUint32 buf (namesz + 2)
      .ok (.request (some (.name name)) session
        (some (buf.drop (2 + namesz + 4))) (buf.length - namesz - 6) false
        (session = 0))

/-- `unpackmreq_string` -/
def unpackmreqString (buf : List UInt8) (isPush : Bool) :
    Except Failure Unpacked :=
  if buf.length < 2 then .error (.invalidMessage buf.length)
  else
    let namesz := ((buf.drop 1).headD 0).toNat
    if buf.length < namesz + 10 then .error (.invalidMessage buf.length)
    else
      let name := (buf.drop 2).take namesz
      let session := unpackUint32 buf (namesz + 2)
      let size := unpackUint32 buf (namesz + 6)
      .ok (.request (some (.name name)) session none size true isPush)

/-- `lunpackrequest`; a Lua string ends with a zero byte. -/
def unpackrequest (msg : List UInt8) : Except Failure Unpacked :=
  match msg.headD 0 with
  | 0 => unpackreqNumber msg
  | 1 => unpackmreqNumber msg false
  | 0x41 => unpackmreqNumber msg true
  | 2 => unpackmreqPart msg
  | 3 => unpackmreqPart msg
  | 4 => unpacktrace msg
  | 0x80 => unpackreqString msg
  | 0x81 => unpackmreqString msg false
  | 0xc1 => unpackmreqString msg true
  | type => .error (.invalidType type)

/-! ## Responses -/

/-- A package of `lpackresponse` behind the first one. -/
def packResponsePart (session : ℕ) (part : Bool × List UInt8) : List UInt8 :=
  fillHeader (part.2.length + 5) ++ fillUint32 session ++
    [if part.1 then 3 else 4] ++ part.2

/-- `lpackresponse`: the packages, of which there are several if a table is
returned. -/
def packresponse (session : ℕ) (ok : Bool) (msg : List UInt8) :
    List (List UInt8) :=
  let sz := msg.length
  if ok ∧ sz > multiPart then
    (fillHeader 9 ++ fillUint32 session ++ [2] ++ fillUint32 sz) ::
      (Parts.cut multiPart (Parts.count multiPart sz) msg).map
        (packResponsePart session)
  else
    -- truncate the error msg if too long
    let msg := if ok then msg else msg.take multiPart
    [fillHeader (msg.length + 5) ++ fillUint32 session ++
      [if ok then 1 else 0] ++ msg]

/-- What `unpackresponse` returns. -/
structure Response where
  session : ℕ
  ok : Bool
  data : Item
  padding : Bool
  deriving DecidableEq, Repr

/-- `lunpackresponse`; `none` if it returns nothing. -/
def unpackresponse (buf : List UInt8) : Option Response :=
  if buf.length < 5 then none
  else
    let session := unpackUint32 buf 0
    let data := buf.drop 5
    match (buf.drop 4).headD 0 with
    | 0 => some ⟨session, false, .msg data, false⟩
    | 1 => some ⟨session, true, .msg data, false⟩
    | 4 => some ⟨session, true, .msg data, false⟩
    | 2 =>
      if buf.length ≠ 9 then none
      else some ⟨session, true, .size (unpackUint32 buf 5), true⟩
    | 3 => some ⟨session, true, .msg data, true⟩
    | _ => none

/-! ## Putting parts together -/

/-- `lappend` to the array of a large request. -/
def append (items : List Item) (msg : Option (List UInt8)) (sz : ℕ) :
    List Item :=
  match msg with
  | none => items ++ [.size sz]
  | some s => items ++ [.msg s]

/-- The loop of `lconcat` over the strings of the array; `buff` has room for
`sz` bytes. -/
def concatFrom (sz : ℕ) : List Item → List UInt8 → Option (List UInt8)
  | .msg s :: items, buff =>
    if s.length + buff.length > sz then none
    else concatFrom sz items (buff ++ s)
  | _, buff => some buff

/-- `lconcat`; `none` if it returns nothing.  The size is an `int`. -/
def concat : List Item → Option (List UInt8)
  | .size n :: items =>
    if n < 2 ^ 31 then
      (concatFrom n items []).filter fun buff => buff.length = n
    else none
  | _ => none

end SkynetServer.Cluster
