import SkynetServer.Support.RingBuffer

/-!
# Package queues, `lua-netpack.c`

`netpack.filter` takes what arrived on a socket and cuts it into packages.  A
package that is alone in what arrived is returned at once; several are put in
the ring of the queue, from which `netpack.pop` takes them; and what is left
of an incomplete package is kept in an uncomplete record, in the hash chain
of its fd.

Every function returns `none` where the source reads or writes outside of its
buffers or an assertion fails.
-/

namespace SkynetServer.Netpack

/-- The id of a socket, a C `int`. -/
abbrev Fd := BitVec 32

/-- An allocated block; a byte that was never written is `none`. -/
abbrev Buffer := List (Option UInt8)

/-- `skynet_malloc` -/
def malloc (size : ℕ) : Buffer := List.replicate size none

/-- `memcpy` of `size` bytes to an offset of a block. -/
def memcpy (buffer : Buffer) (offset : ℕ) (bytes : List UInt8) (size : ℕ) :
    Option Buffer :=
  if size ≤ bytes.length ∧ offset + size ≤ buffer.length then
    some (buffer.take offset ++ (bytes.take size).map some ++
      buffer.drop (offset + size))
  else none

/-- `struct netpack` -/
structure Pack where
  id : Fd
  size : ℕ
  buffer : Buffer
  deriving DecidableEq, Repr

/-- `struct uncomplete`, less its `next` pointer.  `read` is -1 while only
the first byte of the size has arrived, which is then in `header`. -/
structure Uncomplete where
  pack : Pack
  read : ℤ
  header : ℕ
  deriving DecidableEq, Repr

/-- `QUEUESIZE` -/
def queueSize : ℕ := 1024

/-- `HASHSIZE` -/
def hashSize : ℕ := 4096

/-- `struct queue`.  A hash chain is the list of its records. -/
structure Queue extends RingBuffer Pack where
  hash : ℕ → List Uncomplete

/-- `hash_fd` -/
def hashFd (fd : Fd) : ℕ :=
  let a := fd.sshiftRight 24
  let b := fd.sshiftRight 12
  let c := fd
  (a + b + c).toNat % hashSize

/-- The first record of an fd and the chain without it. -/
def unlink (fd : Fd) :
    List Uncomplete → Option (Uncomplete × List Uncomplete)
  | [] => none
  | uc :: next =>
    if uc.pack.id = fd then some (uc, next)
    else (unlink fd next).map fun (found, rest) => (found, uc :: rest)

/-- `find_uncomplete`: the record it returns, if any, and the queue it
leaves. -/
def findUncomplete (q : Option Queue) (fd : Fd) :
    Option Uncomplete × Option Queue :=
  match q with
  | none => (none, none)
  | some q =>
    match unlink fd (q.hash (hashFd fd)) with
    | none => (none, some q)
    | some (uc, next) =>
      (some uc,
        some { q with hash := Function.update q.hash (hashFd fd) next })

/-- `get_queue` -/
def getQueue : Option Queue → Queue
  | some q => q
  | none =>
    { cap := queueSize
      head := 0
      tail := 0
      slot := fun _ => none
      hash := fun _ => [] }

/-- `expand_queue`.  The old queue is left empty; it is no longer the one
the filter returns. -/
def expandQueue (q : Queue) : Queue :=
  { toRingBuffer := q.toRingBuffer.grow queueSize
    hash := q.hash }

/-- `push_data`, once the buffer belongs to the package. -/
def pushData (q : Option Queue) (fd : Fd) (buffer : Buffer) (size : ℕ) :
    Queue :=
  let q := getQueue q
  let q := { q with toRingBuffer := q.toRingBuffer.push ⟨fd, size, buffer⟩ }
  if q.head = q.tail then expandQueue q else q

/-- `push_data` with a copy of the bytes. -/
def pushClone (q : Option Queue) (fd : Fd) (bytes : List UInt8) (size : ℕ) :
    Option Queue := do
  let buffer ← memcpy (malloc size) 0 bytes size
  return pushData q fd buffer size

/-- `save_uncomplete`, with the fields its caller sets. -/
def saveUncomplete (q : Option Queue) (uc : Uncomplete) : Queue :=
  let q := getQueue q
  let h := hashFd uc.pack.id
  { q with hash := Function.update q.hash h (uc :: q.hash h) }

/-- The record of the first byte of a size. -/
def saveHeader (q : Option Queue) (fd : Fd) (b : UInt8) : Queue :=
  saveUncomplete q ⟨⟨fd, 0, []⟩, -1, b.toNat⟩

/-- The record of a package of which not all bytes have arrived. -/
def saveBody (q : Option Queue) (fd : Fd) (packSize : ℕ)
    (bytes : List UInt8) : Option Queue := do
  let buffer ← memcpy (malloc packSize) 0 bytes bytes.length
  return saveUncomplete q ⟨⟨fd, packSize, buffer⟩, bytes.length, 0⟩

/-- `read_size` -/
def readSize (a b : UInt8) : ℕ := a.toNat <<< 8 ||| b.toNat

/-- `push_more` -/
def pushMore (q : Option Queue) (fd : Fd) : List UInt8 → Option Queue
  | [] => none
  | [b] => some (saveHeader q fd b)
  | a :: b :: bytes =>
    if bytes.length < readSize a b then saveBody q fd (readSize a b) bytes
    else do
      let q ← pushClone q fd bytes (readSize a b)
      if (bytes.drop (readSize a b)).length > 0 then
        pushMore (some q) fd (bytes.drop (readSize a b))
      else some q
termination_by bytes => bytes.length
decreasing_by
  rw [List.length_drop, List.length_cons, List.length_cons]
  omega

/-- What `netpack.filter` returns behind the queue. -/
inductive Result where
  | none
  | data (pack : Pack)
  | more

/-- The `read size` block of `filter_data_`. -/
def readHeader (uc : Uncomplete) (bytes : List UInt8) :
    Option (Uncomplete × List UInt8) :=
  if uc.read < 0 then
    if uc.read = -1 then
      match bytes with
      | [] => none
      | b :: bytes =>
        let packSize := b.toNat ||| uc.header <<< 8
        some
          ({ uc with
            pack := ⟨uc.pack.id, packSize, malloc packSize⟩
            read := 0 }, bytes)
    else none
  else some (uc, bytes)

/-- The rest of `filter_data_` for an fd with an uncomplete record. -/
def fill (q : Queue) (fd : Fd) (uc : Uncomplete) (bytes : List UInt8) :
    Option (Queue × Result) :=
  let need : ℤ := uc.pack.size - uc.read
  if bytes.length < need then do
    let buffer ← memcpy uc.pack.buffer uc.read.toNat bytes bytes.length
    let uc :=
      { uc with
        pack := { uc.pack with buffer }
        read := uc.read + bytes.length }
    let h := hashFd fd
    return ({ q with hash := Function.update q.hash h (uc :: q.hash h) }, .none)
  else if need < 0 then none
  else do
    let buffer ← memcpy uc.pack.buffer uc.read.toNat bytes need.toNat
    let bytes := bytes.drop need.toNat
    if bytes.length = 0 then
      return (q, .data ⟨fd, uc.pack.size, buffer⟩)
    else
      let q := pushData (some q) fd buffer uc.pack.size
      let q ← pushMore (some q) fd bytes
      return (q, .more)

/-- `filter_data_` for an fd without an uncomplete record. -/
def start (q : Option Queue) (fd : Fd) :
    List UInt8 → Option (Option Queue × Result)
  | [] => none
  | [b] => some (some (saveHeader q fd b), .none)
  | a :: b :: bytes =>
    let packSize := readSize a b
    if bytes.length < packSize then do
      let q ← saveBody q fd packSize bytes
      return (some q, .none)
    else if bytes.length = packSize then do
      -- just one package
      let result ← memcpy (malloc packSize) 0 bytes bytes.length
      return (q, .data ⟨fd, bytes.length, result⟩)
    else do
      -- more data
      let q ← pushClone q fd bytes packSize
      let q ← pushMore (some q) fd (bytes.drop packSize)
      return (some q, .more)

/-- `filter_data_` -/
def filterData (q : Option Queue) (fd : Fd) (bytes : List UInt8) :
    Option (Option Queue × Result) :=
  match findUncomplete q fd with
  | (some uc, some q) => do
    let (uc, bytes) ← readHeader uc bytes
    let (q, result) ← fill q fd uc bytes
    return (some q, result)
  | (_, q) => start q fd bytes

/-- `close_uncomplete` -/
def closeUncomplete (q : Option Queue) (fd : Fd) : Option Queue :=
  (findUncomplete q fd).2

/-- `lpop`: the package it returns, if any, and the queue it leaves. -/
def lpop (q : Queue) : Option (Option Pack × Queue) :=
  if q.head = q.tail then some (none, q)
  else do
    let np ← q.slot q.head
    return (some np, { q with toRingBuffer := q.toRingBuffer.drop })

/-- `dispatch_queue` of `gateserver.lua`: pop until the ring is empty.  The
ring has fewer entries than slots, so `cap` rounds are enough. -/
def dispatchQueue : ℕ → Queue → Option (List Pack × Queue)
  | 0, _ => none
  | n + 1, q => do
    match ← lpop q with
    | (none, q) => return ([], q)
    | (some np, q) =>
      let (nps, q) ← dispatchQueue n q
      return (np :: nps, q)

/-- `write_size` -/
def writeSize (len : ℕ) : List UInt8 :=
  [UInt8.ofNat ((len >>> 8) &&& 0xff), UInt8.ofNat (len &&& 0xff)]

/-- `lpack`; a message that is too long is an error. -/
def lpack (msg : List UInt8) : Option (List UInt8) :=
  if msg.length ≥ 0x10000 then none else some (writeSize msg.length ++ msg)

/-- The queue of a gate and the packages that were dispatched. -/
structure State where
  queue : Option Queue
  delivered : List Pack

/-- Bytes that arrived on a socket. -/
structure Chunk where
  fd : Fd
  bytes : List UInt8
  nonempty : bytes ≠ []

/-- The `socket` protocol of `gateserver.lua`, for a data message. -/
def State.receive (s : State) (c : Chunk) : Option State := do
  match ← filterData s.queue c.fd c.bytes with
  | (q, .none) => return { s with queue := q }
  | (q, .data np) => return { queue := q, delivered := s.delivered ++ [np] }
  | (none, .more) => none
  | (some q, .more) =>
    let (nps, q) ← dispatchQueue q.cap q
    return { queue := some q, delivered := s.delivered ++ nps }

/-- A gate that has received nothing. -/
def State.init : State := ⟨none, []⟩

end SkynetServer.Netpack
