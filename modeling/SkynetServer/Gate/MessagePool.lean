import Mathlib.Data.Int.Notation
import SkynetServer.Support.Transition

/-!
# The message pool of `databuffer.h`

Buffers whose nodes come from one pool.  A node is in the list of a buffer or in
the free list of the pool, linked by the same pointer.

The functions return nothing where the code goes through a null pointer, fails
an assertion or reads outside of a chunk.
-/

namespace SkynetServer.Gate.Pool

open Function Transition

/-- The conversion to `int`. -/
def int (n : ℤ) : ℤ := n.bmod 0x100000000

def MESSAGEPOOL : ℕ := 1023

/-- `struct message` -/
structure Message where
  buffer : Option (List UInt8)
  size : ℤ
  next : Option ℕ

/-- `struct databuffer` -/
structure Databuffer where
  header : ℤ
  offset : ℤ
  size : ℤ
  head : Option ℕ
  tail : Option ℕ

/-- The pool and the buffers that share it. -/
structure State (κ : Type) where
  node : ℕ → Message
  /-- How many blocks of nodes there are; they lie one behind the other. -/
  pool : ℕ
  freelist : Option ℕ
  buffer : κ → Databuffer
  /-- What `databuffer_read` has copied. -/
  reads : List (κ × List UInt8)

/-- The number of nodes of the pool. -/
def State.top {κ : Type} (s : State κ) : ℕ := s.pool * MESSAGEPOOL

/-- A buffer after `memset`. -/
def Databuffer.zero : Databuffer where
  header := 0
  offset := 0
  size := 0
  head := none
  tail := none

namespace State

variable {κ : Type}

/-- An empty pool and empty buffers. -/
def init : State κ where
  node := fun _ => ⟨none, 0, none⟩
  pool := 0
  freelist := none
  buffer := fun _ => .zero
  reads := []

variable [DecidableEq κ] (s : State κ) (k : κ)

def setBuffer (db : Databuffer) : State κ :=
  { s with buffer := update s.buffer k db }

def setOffset (offset : ℤ) : State κ :=
  s.setBuffer k { s.buffer k with offset := offset }

def setSize (size : ℤ) : State κ :=
  s.setBuffer k { s.buffer k with size := size }

/-- `_return_message` -/
def returnMessage : Option (State κ) :=
  let db := s.buffer k
  db.head.bind fun m =>
    let next := (s.node m).next
    if next = none ∧ db.tail ≠ some m then none
    else
      some
        { s with
          node := update s.node m ⟨none, 0, s.freelist⟩
          freelist := m
          buffer := update s.buffer k
            { db with
              head := next
              tail := if next = none then none else db.tail } }

omit [DecidableEq κ] in
/-- `memcpy` of `n` bytes of a chunk -/
def copy (m : ℕ) (offset n : ℤ) : Option (List UInt8) :=
  (s.node m).buffer.bind fun data =>
    if 0 ≤ offset ∧ 0 ≤ n ∧ offset + n ≤ data.length then
      some ((data.drop offset.toNat).take n.toNat)
    else none

/-- The loop of `databuffer_read`, with the bytes that were copied.  It takes no
more rounds than there are nodes. -/
def readLoop :
    ℕ → ℤ → List UInt8 → State κ → Option (List UInt8 × State κ)
  | 0, _, _, _ => none
  | n + 1, sz, b, s =>
    let offset := (s.buffer k).offset
    (s.buffer k).head.bind fun current =>
      let bsz := (s.node current).size - offset
      if bsz > sz then
        (s.copy current offset sz).map fun data =>
          (b ++ data, s.setOffset k (offset + sz))
      else if bsz = sz then
        (s.copy current offset sz).bind fun data =>
          ((s.setOffset k 0).returnMessage k).map fun s => (b ++ data, s)
      else
        (s.copy current offset bsz).bind fun data =>
          (s.returnMessage k).bind fun s =>
            readLoop n (sz - bsz) (b ++ data) (s.setOffset k 0)

/-- `databuffer_read` -/
def read (sz : ℤ) : Option (List UInt8 × State κ) :=
  if (s.buffer k).size < sz then none
  else readLoop k s.top sz [] (s.setSize k (int ((s.buffer k).size - sz)))

omit [DecidableEq κ] in
/-- The node that `databuffer_push` takes: from the free list, or the first one
of a new block. -/
def freeMessage : ℕ × State κ :=
  match s.freelist with
  | some m => (m, { s with freelist := (s.node m).next })
  | none =>
    (s.top,
      { s with
        node := fun a =>
          if s.top ≤ a ∧ a < s.top + MESSAGEPOOL then
            ⟨none, 0, if a + 1 = s.top + MESSAGEPOOL then none else some (a + 1)⟩
          else s.node a
        pool := s.pool + 1
        freelist := some (s.top + 1) })

/-- Put a node behind the last one. -/
def append (m : ℕ) : Option (State κ) :=
  let db := s.buffer k
  match db.head with
  | none =>
    if db.tail = none then
      some (s.setBuffer k { db with head := m, tail := m })
    else none
  | some _ => db.tail.map fun t =>
    { s with
      node := update s.node t { s.node t with next := m }
      buffer := update s.buffer k { db with tail := m } }

/-- `databuffer_push` -/
def push (data : List UInt8) : Option (State κ) :=
  let sz : ℤ := data.length
  let m := s.freeMessage.1
  let s := s.freeMessage.2
  let s := { s with node := update s.node m ⟨some data, sz, none⟩ }
  let s := s.setSize k (int ((s.buffer k).size + sz))
  s.append k m

/-- The loop of `databuffer_clear` -/
def clearLoop : ℕ → State κ → Option (State κ)
  | 0, s => if (s.buffer k).head = none then some s else none
  | n + 1, s =>
    if (s.buffer k).head = none then some s
    else (s.returnMessage k).bind (clearLoop n)

/-- `databuffer_clear` -/
def clear : Option (State κ) :=
  (clearLoop k s.top s).map fun s => s.setBuffer k .zero

end State

/-! ## Runs -/

/-- A call for one of the buffers. -/
inductive Op (κ : Type) where
  | push (k : κ) (data : List UInt8)
  | read (k : κ) (sz : ℤ)
  | clear (k : κ)

/-- A call without a result is a fault. -/
def State.outcome {κ : Type} (s : Option (State κ)) : Outcome Unit (State κ) :=
  match s with
  | some s => .next s
  | none => .fault ()

/-- One call: data that are pushed are not empty and have an `int` as their
size, and no more bytes are read than the buffer says it has. -/
def State.step {κ : Type} [DecidableEq κ] (s : State κ) :
    Op κ → Outcome Unit (State κ)
  | .push k data =>
    if data = [] ∨ 0x80000000 ≤ data.length then .blocked
    else State.outcome (s.push k data)
  | .read k sz =>
    if 0 < sz ∧ sz ≤ (s.buffer k).size then
      State.outcome ((s.read k sz).map fun r =>
        { r.2 with reads := r.2.reads ++ [(k, r.1)] })
    else .blocked
  | .clear k => State.outcome (s.clear k)

/-! ## What the buffers stand for -/

/-- A queue of bytes for each buffer, and what was read. -/
structure Queues (κ : Type) where
  queue : κ → List UInt8
  reads : List (κ × List UInt8)

namespace Queues

variable {κ : Type} [DecidableEq κ]

omit [DecidableEq κ] in
def empty : Queues κ := ⟨fun _ => [], []⟩

def step (q : Queues κ) : Op κ → Queues κ
  | .push k data => { q with queue := update q.queue k (q.queue k ++ data) }
  | .read k sz =>
    { queue := update q.queue k ((q.queue k).drop sz.toNat)
      reads := q.reads ++ [(k, (q.queue k).take sz.toNat)] }
  | .clear k => { q with queue := update q.queue k [] }

def run (ops : List (Op κ)) : Queues κ := ops.foldl step empty

end Queues

end SkynetServer.Gate.Pool
