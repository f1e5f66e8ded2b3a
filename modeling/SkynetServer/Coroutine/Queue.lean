import Mathlib.Data.Int.Notation
import SkynetServer.Coroutine.DeadService

/-!
# Critical sections, `skynet/queue.lua`

A queue object lets one coroutine in at a time.  The others wait in
`thread_queue`, and the one that leaves hands the queue over to the first of
them and wakes it; until that coroutine runs again, the queue is its own.
The functions that are called in the queue are any operations of the
coroutines of a service, calls of the same queue among them.
-/

namespace SkynetServer.Coroutine.Queue

open Transition

/-- `current_thread`, `ref` and `thread_queue`. -/
structure Lock where
  currentThread : Option ℕ
  ref : ℤ
  threadQueue : List ℕ
  deriving DecidableEq, Repr

/-- A call of the queue that has not returned: the coroutine waits, or is
inside, and `ref` was the count before. -/
inductive Call where
  | waiting
  | inside (ref : ℤ)
  deriving DecidableEq, Repr

/-- What a function in the queue ends with: an error or values. -/
abbrev Result (α : Type*) := Except α (List α)

/-- A service with a queue object, the calls of each coroutine with the last
one first, the coroutines in the order in which they began to wait and in
which they entered after that, and what the calls returned. -/
structure System (α : Type*) where
  service : State
  lock : Lock
  calls : ℕ → List Call
  arrived : List ℕ
  entered : List ℕ
  returned : List (ℕ × Result α)

/-- A coroutine is resumed that is not suspended, or `assert(ref == 0)`
fails. -/
inductive Failure where
  | service (failure : Coroutine.Failure)
  | assertion
  deriving DecidableEq, Repr

/-- A step of the service, a call of the queue, with a session for
`skynet.wait`, the return of `skynet.wait` in it, or the end of the function
that it called. -/
inductive Label (α : Type*) where
  | service (l : Coroutine.Label)
  | call (session : ℕ)
  | enter
  | leave (result : Result α)

/-- `xpcall_ret` until it returns. -/
def Lock.release (lock : Lock) : Lock :=
  let ref := lock.ref - 1
  if ref = 0 then
    { currentThread := lock.threadQueue.head?
      ref := ref
      threadQueue := lock.threadQueue.tail }
  else { lock with ref := ref }

/-- The thread that `xpcall_ret` wakes. -/
def Lock.next (lock : Lock) : Option ℕ :=
  if lock.ref - 1 = 0 then lock.threadQueue.head? else none

section Steps

variable {α : Type*} (traceback : α → α)

/-- What `xpcall_ret` returns or raises. -/
def xpcallRet : Result α → Result α
  | .ok values => .ok values
  | .error err => .error (traceback err)

/-- The coroutine is not at the end of a function in the queue, nor in a call
of the queue that waits. -/
def System.runs (s : System α) (l : Coroutine.Label) : Bool :=
  match l, s.service.control with
  | .op op, .run co =>
    match s.calls co, op with
    | [], _ => true
    | .waiting :: _, _ => false
    | .inside _ :: _, .finish => false
    | .inside _ :: _, .error _ => false
    | .inside _ :: _, _ => true
  | _, _ => true

/-- Another coroutine has the queue. -/
def System.Waits (s : System α) (co : ℕ) : Prop :=
  s.lock.currentThread ≠ none ∧ s.lock.currentThread ≠ some co

instance (s : System α) (co : ℕ) : Decidable (s.Waits co) :=
  inferInstanceAs (Decidable (_ ∧ _))

/-- The function that `skynet.queue` returns, in the coroutine. -/
def System.call (s : System α) (co session : ℕ) : System α :=
  if s.Waits co then
    { s with
      lock := { s.lock with threadQueue := s.lock.threadQueue ++ [co] }
      service := s.service.suspendSleep co session (.thread co)
        (.wait (.thread co))
      calls := Function.update s.calls co (.waiting :: s.calls co)
      arrived := s.arrived ++ [co] }
  else
    { s with
      lock := { s.lock with
        currentThread := some co
        ref := s.lock.ref + 1 }
      calls := Function.update s.calls co
        (.inside s.lock.ref :: s.calls co) }

/-- `skynet.wait` has returned. -/
def System.enter (s : System α) (co : ℕ) (calls : List Call) :
    Outcome Failure (System α) :=
  if s.lock.ref = 0 then
    .next { s with
      lock := { s.lock with
        currentThread := some co
        ref := s.lock.ref + 1 }
      calls := Function.update s.calls co (.inside s.lock.ref :: calls)
      entered := s.entered ++ [co] }
  else .fault .assertion

/-- The function has ended. -/
def System.leave (s : System α) (co : ℕ) (calls : List Call)
    (result : Result α) : System α :=
  { s with
    lock := s.lock.release
    service :=
      match s.lock.next with
      | some thread => s.service.wakeup (.thread thread)
      | none => s.service
    calls := Function.update s.calls co calls
    returned := s.returned ++ [(co, xpcallRet traceback result)] }

/-- One step. -/
def step (s : System α) : Label α → Outcome Failure (System α)
  | .service l =>
    if s.runs l then
      match Coroutine.step s.service l with
      | .next service => .next { s with service := service }
      | .blocked => .blocked
      | .fault failure => .fault (.service failure)
    else .blocked
  | .call session =>
    match s.service.control with
    | .run co =>
      match s.calls co with
      | .waiting :: _ => .blocked
      | _ => .next (s.call co session)
    | _ => .blocked
  | .enter =>
    match s.service.control with
    | .run co =>
      match s.calls co with
      | .waiting :: calls => s.enter co calls
      | _ => .blocked
    | _ => .blocked
  | .leave result =>
    match s.service.control with
    | .run co =>
      match s.calls co with
      | .inside _ :: calls => .next (s.leave traceback co calls result)
      | _ => .blocked
    | _ => .blocked

end Steps

/-- A queue object of a service that starts. -/
def start (α : Type*) (session co : ℕ) : System α where
  service := Coroutine.start session co
  lock := ⟨none, 0, []⟩
  calls := fun _ => []
  arrived := []
  entered := []
  returned := []

section Conditions

variable {α : Type*}

/-- The coroutine waits in the queue. -/
def System.Waiting (s : System α) (co : ℕ) : Prop :=
  s.calls co = [.waiting]

/-- The coroutine is in a function that it called in the queue. -/
def System.Inside (s : System α) (co : ℕ) : Prop :=
  ∃ ref calls, s.calls co = .inside ref :: calls

/-- The coroutines that wait in the queue are woken by nothing else, and the
steps of the service are proper. -/
def only (s : System α) : Label α → Prop
  | .service l => proper s.service l ∧ ∀ co, s.Waiting co →
    l ≠ .op (.wakeup (.thread co)) ∧
      ∀ w, s.service.status co = .waiting w →
        l ≠ .message (.response w.session)
  | .call session => ∀ co, s.service.control = .run co → s.Waits co →
    s.service.New session ∧ s.service.sleepSession (.thread co) = none ∧
      .thread co ∉ s.service.wakeupQueue
  | .enter => True
  | .leave _ => True

end Conditions

end SkynetServer.Coroutine.Queue
