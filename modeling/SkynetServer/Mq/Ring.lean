import Mathlib.Data.Int.Notation
import Mathlib.Data.Nat.Notation
import Mathlib.Logic.Function.Basic
import Mathlib.Tactic.SplitIfs

/-!
# Message queues, `skynet_mq.c`

A service's queue is a ring buffer that is doubled when it is full.  The
definitions below are what the source does to one `struct message_queue`
while its lock is held; handing the queue to the global queue is left to the
system, because it takes a second lock.

The numbers in the structure are integers of 32 bits.
-/

namespace SkynetServer.Mq

/-- `struct skynet_message` -/
structure Message where
  source : ℕ
  session : ℤ
  data : ℕ
  sz : ℕ
  deriving DecidableEq, Repr

/-- `DEFAULT_QUEUE_SIZE` -/
def defaultQueueSize : ℕ := 64

/-- `MQ_OVERLOAD` -/
def mqOverload : ℕ := 1024

/-- A number as an `int`: it wraps. -/
def int (n : ℤ) : ℤ := n.bmod 0x100000000

/-- `struct message_queue`, less its `next` pointer, which belongs to the
global queue.  `inGlobal` is the comparison of `in_global` with
`MQ_IN_GLOBAL`. -/
structure Queue where
  handle : ℕ
  cap : ℤ
  head : ℤ
  tail : ℤ
  release : Bool
  inGlobal : Bool
  overload : ℤ
  overloadThreshold : ℤ
  queue : ℤ → Message

/-- `skynet_mq_create`.  The memory of the ring is not initialised, so its
contents are arbitrary. -/
def create (handle : ℕ) (memory : ℤ → Message) : Queue where
  handle := handle
  cap := defaultQueueSize
  head := 0
  tail := 0
  -- set in_global flag to avoid push it to global queue
  inGlobal := true
  release := false
  overload := 0
  overloadThreshold := mqOverload
  queue := memory

namespace Queue

/-- The queue has a message that was pushed and not popped. -/
def Pending (q : Queue) : Prop := q.head ≠ q.tail

instance (q : Queue) : Decidable q.Pending :=
  inferInstanceAs (Decidable (q.head ≠ q.tail))

/-- `skynet_mq_length` -/
def length (q : Queue) : ℤ :=
  if q.head ≤ q.tail then int (q.tail - q.head)
  else int (int (q.tail + q.cap) - q.head)

/-- `skynet_mq_overload`: the value it returns and the queue it leaves. -/
def takeOverload (q : Queue) : ℤ × Queue :=
  if q.overload ≠ 0 then (q.overload, { q with overload := 0 }) else (0, q)

/-- The `while` loop of `skynet_mq_pop`.  A threshold that was doubled 32 times
is 0, so a loop that needs more rounds does not end. -/
def raiseThreshold (length : ℤ) : ℕ → Queue → Option Queue
  | 0, _ => none
  | n + 1, q =>
    if length > q.overloadThreshold then
      raiseThreshold length n
        { q with
          overload := length
          overloadThreshold := int (q.overloadThreshold * 2) }
    else some q

/-- The position behind `i`: it is incremented, and set to 0 at the end of the
array. -/
def next (q : Queue) (i : ℤ) : ℤ :=
  if int (i + 1) ≥ q.cap then 0 else int (i + 1)

/-- `skynet_mq_pop`: the message, if there is one, and the queue.  There is no
result when the loop does not end. -/
def pop (q : Queue) : Option (Option Message × Queue) :=
  if q.head ≠ q.tail then
    let message := q.queue q.head
    let head := q.next q.head
    let length := int (q.tail - head)
    let length := if length < 0 then int (length + q.cap) else length
    (raiseThreshold length 34 { q with head }).map fun q => (some message, q)
  else
    -- reset overload_threshold when queue is empty
    some (none, { q with overloadThreshold := mqOverload, inGlobal := false })

/-- `expand_queue` -/
def expand (q : Queue) : Queue :=
  { q with
    queue := fun i =>
      if 0 ≤ i ∧ i < q.cap then q.queue (int (q.head + i) % q.cap)
      else q.queue i
    head := 0
    tail := q.cap
    cap := int (q.cap * 2) }

/-- The message is written behind the last one. -/
def append (q : Queue) (message : Message) : Queue :=
  { q with
    queue := Function.update q.queue q.tail message
    tail := q.next q.tail }

/-- The part of `skynet_mq_push` that stores the message. -/
def store (q : Queue) (message : Message) : Queue :=
  if (q.append message).head = (q.append message).tail then
    (q.append message).expand
  else q.append message

/-- `skynet_mq_push`.  The queue that is pushed to is in the global queue
afterwards. -/
def push (q : Queue) (message : Message) : Queue :=
  { q.store message with inGlobal := true }

/-! ## What the operations leave alone -/

section Frame

variable (q : Queue) (message : Message)

@[simp] theorem takeOverload_handle : q.takeOverload.2.handle = q.handle := by
  unfold takeOverload; split <;> rfl

@[simp] theorem takeOverload_release :
    q.takeOverload.2.release = q.release := by
  unfold takeOverload; split <;> rfl

@[simp] theorem takeOverload_inGlobal :
    q.takeOverload.2.inGlobal = q.inGlobal := by
  unfold takeOverload; split <;> rfl

@[simp] theorem takeOverload_pending :
    q.takeOverload.2.Pending ↔ q.Pending := by
  unfold takeOverload; split <;> rfl

@[simp] theorem store_handle : (q.store message).handle = q.handle := by
  unfold store; split <;> rfl

@[simp] theorem store_release : (q.store message).release = q.release := by
  unfold store; split <;> rfl

@[simp] theorem store_inGlobal : (q.store message).inGlobal = q.inGlobal := by
  unfold store; split <;> rfl

theorem store_threshold :
    (q.store message).overload = q.overload ∧
      (q.store message).overloadThreshold = q.overloadThreshold := by
  unfold store; split <;> exact ⟨rfl, rfl⟩

variable {q message} {q' : Queue}

theorem raiseThreshold_frame
    {length : ℤ} {n : ℕ} (h : raiseThreshold length n q = some q') :
    ∃ overload overloadThreshold,
      q' = { q with overload, overloadThreshold } := by
  induction n generalizing q with
  | zero => cases h
  | succ n ih =>
      rw [raiseThreshold] at h
      split at h
      · obtain ⟨_, _, rfl⟩ := ih h
        exact ⟨_, _, rfl⟩
      · cases h
        exact ⟨_, _, rfl⟩

/-- A pop of a queue with messages moves the head on by one position. -/
theorem pop_some (h : q.pop = some (some message, q')) :
    q.Pending ∧ message = q.queue q.head ∧ ∃ overload overloadThreshold,
      q' = { q with head := q.next q.head, overload, overloadThreshold } := by
  rw [pop] at h
  split at h
  · rename_i hpending
    obtain ⟨q₁, hraise, heq⟩ := Option.map_eq_some_iff.mp h
    cases heq
    exact ⟨hpending, rfl, raiseThreshold_frame hraise⟩
  · cases h

theorem pop_none (h : q.pop = some (none, q')) :
    ¬ q.Pending ∧
      q' = { q with overloadThreshold := mqOverload, inGlobal := false } := by
  rw [pop] at h
  split at h
  · obtain ⟨q₁, -, heq⟩ := Option.map_eq_some_iff.mp h
    cases heq
  · rename_i hempty
    cases h
    exact ⟨hempty, rfl⟩

end Frame

end Queue

end SkynetServer.Mq
