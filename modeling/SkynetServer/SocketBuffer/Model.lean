import Mathlib.Data.Int.Notation
import Mathlib.Data.Nat.Notation
import Mathlib.Logic.Function.Basic

/-!
# The socket buffer of `lua-socket.c`

A socket buffer is a list of chunks, in nodes that come from a pool, and an
offset into the first chunk.  Nodes that are not in the buffer are in the free
list of the pool.

The functions return nothing where the behaviour of the code is undefined: where
it goes through a null pointer, fails an assertion, reads outside of a chunk or
has an `int` overflow.
-/

namespace SkynetServer.LuaSocket

open Function

/-- The conversion to `int`. -/
def int (n : ℤ) : ℤ := n.bmod 0x100000000

/-- The result of an addition or a subtraction of `int`s. -/
def checked (n : ℤ) : Option ℤ := if int n = n then some n else none

/-- `struct buffer_node` -/
structure BufferNode where
  msg : Option (List UInt8)
  sz : ℤ
  next : Option ℕ

/-- A socket buffer and its pool.  The nodes in front of `top` are those of the
pool. -/
structure State where
  size : ℤ
  offset : ℤ
  head : Option ℕ
  tail : Option ℕ
  node : ℕ → BufferNode
  top : ℕ
  /-- The first index of the pool. -/
  free_node : Option ℕ
  /-- The length of the pool. -/
  tsz : ℕ

/-- `lnewbuffer`, with an empty pool. -/
def lnewbuffer : State where
  size := 0
  offset := 0
  head := none
  tail := none
  node := fun _ => ⟨none, 0, none⟩
  top := 0
  free_node := none
  tsz := 0

namespace State

variable (s : State)

/-- `LARGE_PAGE_NODE` -/
def LARGE_PAGE_NODE : ℕ := 12

/-- `lnewpool` -/
def lnewpool (sz : ℕ) : State :=
  { s with
    node := fun a =>
      if s.top ≤ a ∧ a < s.top + sz then
        ⟨none, 0, if a + 1 = s.top + sz then none else some (a + 1)⟩
      else s.node a
    top := s.top + sz }

/-- The free node that `lpushbuffer` takes. -/
def freeNode : ℕ × State :=
  match s.free_node with
  | some a => (a, s)
  | none =>
    let tsz := if s.tsz = 0 then 1 else s.tsz
    let size :=
      if tsz ≤ LARGE_PAGE_NODE - 3 then 8 <<< tsz
      else 8 <<< (LARGE_PAGE_NODE - 3)
    (s.top, { s.lnewpool size with tsz := tsz + 1 })

/-- Put a node behind the last one. -/
def append (a : ℕ) : Option State :=
  match s.head with
  | none => if s.tail = none then some { s with head := a, tail := a } else none
  | some _ => s.tail.map fun t =>
    { s with
      node := update s.node t { s.node t with next := a }
      tail := a }

/-- `lpushbuffer` -/
def lpushbuffer (msg : List UInt8) : Option (ℤ × State) :=
  let sz := int msg.length
  let a := s.freeNode.1
  let s := s.freeNode.2
  let s :=
    { s with
      free_node := (s.node a).next
      node := update s.node a ⟨msg, sz, none⟩ }
  (s.append a).bind fun s =>
    (checked (s.size + sz)).map fun size => (size, { s with size := size })

/-- `return_free_node` -/
def return_free_node : Option State :=
  s.head.map fun a =>
    let head := (s.node a).next
    { s with
      offset := 0
      head := head
      tail := if head = none then none else s.tail
      node := update s.node a ⟨none, 0, s.free_node⟩
      free_node := a }

/-- `n` bytes of a chunk. -/
def read (a : ℕ) (from_ n : ℤ) : Option (List UInt8) :=
  (s.node a).msg.bind fun msg =>
    if 0 ≤ from_ ∧ 0 ≤ n ∧ from_ + n ≤ msg.length then
      some ((msg.drop from_.toNat).take n.toNat)
    else none

/-- The loop of `pop_lstring`, with the bytes that were added.  It takes no more
rounds than there are nodes. -/
def popLoop : ℕ → ℤ → ℤ → List UInt8 → State → Option (List UInt8 × State)
  | 0, _, _, _, _ => none
  | n + 1, sz, skip, b, s =>
    s.head.bind fun a =>
      let bytes := (s.node a).sz - s.offset
      if bytes ≥ sz then
        (if sz > skip then (s.read a s.offset (sz - skip)).map (b ++ ·)
          else some b).bind fun b =>
            let s := { s with offset := s.offset + sz }
            if bytes = sz then s.return_free_node.map fun s => (b, s)
            else some (b, s)
      else
        let real_sz := sz - skip
        (if real_sz > 0 then
            (s.read a s.offset (if real_sz < bytes then real_sz else bytes)).map
              (b ++ ·)
          else some b).bind fun b =>
            s.return_free_node.bind fun s =>
              if sz - bytes = 0 then some (b, s)
              else popLoop n (sz - bytes) skip b s

/-- `pop_lstring` -/
def pop_lstring (sz skip : ℤ) : Option (List UInt8 × State) :=
  s.head.bind fun a =>
    if sz < (s.node a).sz - s.offset then
      (s.read a s.offset (sz - skip)).map fun b =>
        (b, { s with offset := s.offset + sz })
    else if sz = (s.node a).sz - s.offset then
      (s.read a s.offset (sz - skip)).bind fun b =>
        s.return_free_node.map fun s => (b, s)
    else popLoop s.top sz skip [] s

/-- `lpopbuffer`: the string, or `nil`, and the size. -/
def lpopbuffer (sz : ℤ) : Option ((Option (List UInt8) × ℤ) × State) :=
  let sz := int sz
  if s.size < sz ∨ sz = 0 then some ((none, s.size), s)
  else
    (s.pop_lstring sz 0).bind fun r =>
      (checked (r.2.size - sz)).map fun size =>
        ((some r.1, size), { r.2 with size := size })

/-- The loop of `lclearbuffer`. -/
def clearLoop : ℕ → State → Option State
  | 0, s => if s.head = none then some s else none
  | n + 1, s =>
    if s.head = none then some s else s.return_free_node.bind (clearLoop n)

/-- `lclearbuffer` -/
def lclearbuffer : Option State :=
  (clearLoop s.top s).map fun s => { s with size := 0 }

/-- The loop of `lreadall`, with the bytes that were added. -/
def readallLoop : ℕ → List UInt8 → State → Option (List UInt8 × State)
  | 0, b, s => if s.head = none then some (b, s) else none
  | n + 1, b, s =>
    match s.head with
    | none => some (b, s)
    | some a =>
      (s.read a s.offset ((s.node a).sz - s.offset)).bind fun msg =>
        s.return_free_node.bind (readallLoop n (b ++ msg))

/-- `lreadall` -/
def lreadall : Option (List UInt8 × State) :=
  (readallLoop s.top [] s).map fun r => (r.1, { r.2 with size := 0 })

/-- `check_sep`.  It takes no more rounds than there are nodes. -/
def check_sep : ℕ → Option ℕ → ℤ → List UInt8 → ℤ → Option Bool
  | 0, _, _, _, _ => none
  | n + 1, node, from_, sep, seplen =>
    node.bind fun a =>
      let sz := (s.node a).sz - from_
      if sz ≥ seplen then
        (s.read a from_ seplen).map fun b => decide (b = sep.take seplen.toNat)
      else
        (if sz > 0 then
            (s.read a from_ sz).map fun b => decide (b = sep.take sz.toNat)
          else if sz = 0 then some true
          else none).bind fun same =>
            if same then
              check_sep n (s.node a).next 0 (sep.drop sz.toNat) (seplen - sz)
            else some false

/-- `count` rounds of the loop of `lreadline` from the index `i` on: the index
of the separator. -/
def lineLoop (sep : List UInt8) (seplen : ℤ) :
    ℕ → ℤ → ℕ → ℤ → ℤ → Option (Option ℤ)
  | 0, _, _, _, _ => some none
  | count + 1, i, current, from_, bytes =>
    (s.check_sep s.top current from_ sep seplen).bind fun found =>
      if found then some (some i)
      else if bytes - 1 = 0 then
        match (s.node current).next with
        | none => some none
        | some next => lineLoop sep seplen count (i + 1) next 0 (s.node next).sz
      else lineLoop sep seplen count (i + 1) current (from_ + 1) (bytes - 1)

/-- What `lreadline` returns. -/
inductive Line where
  /-- Nothing. -/
  | nothing
  /-- `true`, when only checking. -/
  | found
  | line (b : List UInt8)
  deriving DecidableEq

/-- `lreadline` -/
def lreadline (check : Bool) (sep : List UInt8) : Option (Line × State) :=
  match s.head with
  | none => some (.nothing, s)
  | some current =>
    let seplen := int sep.length
    (checked (s.size - seplen)).bind fun last =>
      (s.lineLoop sep seplen (last + 1).toNat 0 current s.offset
        ((s.node current).sz - s.offset)).bind fun i =>
          match i with
          | none => some (.nothing, s)
          | some i =>
            if check then some (.found, s)
            else
              (s.pop_lstring (i + seplen) seplen).map fun r =>
                (.line r.1, { r.2 with size := int (r.2.size - (i + seplen)) })

end State

end SkynetServer.LuaSocket
