import SkynetServer.Handle.Storage
import SkynetServer.Mq.Contents
import SkynetServer.Support.LinkedQueue
import SkynetServer.Support.Transition

/-!
# Services, their contexts and their queues

The system is any number of activations of the functions of
`skynet_server.c` that run side by side.  An activation is one call in
progress: a worker in `skynet_context_message_dispatch`, a
`skynet_context_new`, a `skynet_context_push`, a `skynet_context_endless` or a
`skynet_handle_retire`.  Calls made by the code of a service, from its init
function or from its callback, are activations of their own, which run while
the activation that called the service stands still.

A step is what an activation does between two points at which another thread
can observe it: one critical section, one atomic operation, or one access to
a field of a context outside any lock.  The fields of `struct skynet_context`
are maps from the addresses of the contexts, so `ctx->ref` is `ref ctx`.
Addresses are not reused, so that a pointer to freed memory stays
recognisable.
-/

namespace SkynetServer.Service

open Handle (Ctx HandleStorage)
open Mq (Message)
open Transition

/-- The address of a `struct message_queue`. -/
abbrev Mq := ℕ

/-- What is left to do after `skynet_context_release` or `skynet_mq_release`
returns. -/
inductive After where
  /-- The activation returns. -/
  | done
  /-- `skynet_context_new` goes on with the success path. -/
  | newPublish (queue : Mq)
  /-- `skynet_context_new` retires the handle of the failed service. -/
  | newRetire (handle : ℕ) (queue : Mq)
  /-- `skynet_context_new` releases the queue of the failed service. -/
  | newDrop (queue : Mq)
  /-- `skynet_context_message_dispatch` returns `skynet_globalmq_pop()`. -/
  | dispatchNext
  /-- `skynet_context_message_dispatch` returns the queue. -/
  | dispatchReturn (q : Mq)
  deriving DecidableEq, Repr

/-- Where an activation stands. -/
inductive Pc where
  /-- No call in progress. -/
  | idle
  /-- `skynet_context_push` after its grab. -/
  | push (ctx : Ctx) (message : Message)
  /-- `skynet_context_endless` after its grab. -/
  | endless (ctx : Ctx)
  /-- Before the decrement of `skynet_context_release`. -/
  | release (ctx : Ctx) (k : After)
  /-- In `delete_context`. -/
  | delete (ctx : Ctx) (k : After)
  /-- Before `skynet_handle_retire` takes its lock. -/
  | retire (handle : ℕ) (k : After)
  /-- `skynet_context_new` between the registration and the store of the
  handle. -/
  | newHandle (ctx : Ctx) (handle : ℕ)
  /-- Before `skynet_mq_create`. -/
  | newQueue (ctx : Ctx)
  /-- In the init function of the service. -/
  | newInit (ctx : Ctx) (queue : Mq)
  /-- The init function has failed. -/
  | newFailed (ctx : Ctx) (queue : Mq)
  /-- Before `ctx->init = true`. -/
  | newSetInit (ctx : Ctx) (queue : Mq)
  /-- Before `skynet_globalmq_push(queue)`, with `ret`. -/
  | newGlobal (queue : Mq) (ret : Option Ctx)
  /-- Before the last `skynet_error(ret, ...)`. -/
  | newLaunched (ret : Ctx)
  /-- Before `skynet_mq_release` takes its lock. -/
  | mqRelease (q : Mq) (k : After)
  /-- In the loop of `_drop_queue`. -/
  | dropQueue (q : Mq) (k : After)
  /-- Before `_release`. -/
  | freeQueue (q : Mq) (k : After)
  /-- Before `skynet_globalmq_pop` of a worker that holds no queue. -/
  | next
  /-- A worker that holds a queue, before its `skynet_handle_grab`. -/
  | dispatch (q : Mq)
  /-- Before `skynet_mq_pop` of round `i` of `n`. -/
  | dispatchPop (q : Mq) (ctx : Ctx) (i n : ℕ)
  /-- Before `skynet_mq_length`. -/
  | dispatchLength (q : Mq) (ctx : Ctx) (message : Message)
  /-- Handling the message of round `i` of `n`. -/
  | dispatchMessage (q : Mq) (ctx : Ctx) (i n : ℕ) (message : Message)
  /-- After the loop. -/
  | dispatchDone (q : Mq) (ctx : Ctx)
  /-- Before `q` is pushed back, with the next queue `nq`. -/
  | dispatchBack (q : Mq) (ctx : Ctx) (nq : Mq)
  deriving DecidableEq, Repr

/-- A failed assertion, or a pointer that does not point anywhere. -/
inductive Fault where
  | handle (f : Handle.Fault)
  /-- `assert(queue->next == NULL)` -/
  | queueLinked
  /-- `assert(mq == q->tail)` -/
  | tailMismatch
  /-- `assert(q->release == 0)` -/
  | markedTwice
  /-- `assert(q == ctx->queue)` -/
  | queueMismatch
  /-- `assert(ctx->init)` -/
  | notInitialised
  /-- `ctx->queue` is used before `skynet_context_new` sets it. -/
  | wildQueue
  deriving DecidableEq, Repr

/-- The whole state. -/
structure State (τ : Type*) where
  storage : HandleStorage
  ref : Ctx → ℤ
  handle : Ctx → ℕ
  queue : Ctx → Option Mq
  init : Ctx → Bool
  endless : Ctx → Bool
  /-- Whether `ctx->cb` is set. -/
  cb : Ctx → Bool
  /-- Number of contexts allocated so far. -/
  contexts : ℕ
  mq : Mq → Mq.Queue
  /-- Number of queues allocated so far. -/
  queues : ℕ
  /-- `Q`, with the `next` pointers of all queues. -/
  global : LinkedQueue Mq
  pc : τ → Pc
  /-- The handle that the registration of a context returned. -/
  issued : Ctx → ℕ
  /-- Whether the slot of a context has been emptied. -/
  retired : Ctx → Bool
  /-- How often `delete_context` was entered for a context. -/
  deleted : Ctx → ℕ
  /-- How often a queue was freed. -/
  freed : Mq → ℕ

/-- What the code of the program and the scheduler leave open. -/
inductive Act where
  | push (handle : ℕ) (message : Message)
  | endless (handle : ℕ)
  | retire (handle : ℕ)
  | new
  | dispatch
  /-- Go on with the call in progress. -/
  | go
  /-- The malloc'ed ring of a new queue. -/
  | memory (m : ℤ → Message)
  /-- The init function returns, with `0` or not, and has set a callback or
  not. -/
  | initReturns (ok cb : Bool)

namespace State

variable {τ : Type*} [DecidableEq τ]

/-- The state before the first service. -/
def start (harbor : ℕ) : State τ where
  storage := Handle.handleInit harbor
  ref := fun _ => 0
  handle := fun _ => 0
  queue := fun _ => none
  init := fun _ => false
  endless := fun _ => false
  cb := fun _ => false
  contexts := 0
  mq := fun _ => Mq.create 0 fun _ => ⟨0, 0, 0, 0⟩
  queues := 0
  global := .empty
  pc := fun _ => .idle
  issued := fun _ => 0
  retired := fun _ => false
  deleted := fun _ => 0
  freed := fun _ => 0

def goto (s : State τ) (t : τ) (p : Pc) : State τ :=
  { s with pc := Function.update s.pc t p }

/-! ## Operations on the shared memory -/

/-- `skynet_handle_grab`: the context found, whose count is incremented. -/
def grab (s : State τ) (handle : ℕ) : Option (Ctx × State τ) :=
  match Handle.handleGrab s.handle s.storage handle with
  | some ctx =>
    some (ctx, { s with ref := Function.update s.ref ctx (s.ref ctx + 1) })
  | none => none

/-- `skynet_globalmq_push` -/
def globalPush (s : State τ) (q : Mq) : Except Fault (State τ) :=
  if s.global.next q = none then .ok { s with global := s.global.push q }
  else .error .queueLinked

/-- `skynet_globalmq_pop` -/
def globalPop (s : State τ) : Except Fault (Option Mq × State τ) :=
  match s.global.head with
  | none => .ok (none, s)
  | some mq =>
    if s.global.next mq = none ∧ s.global.tail ≠ some mq then
      .error .tailMismatch
    else .ok (some mq, { s with global := s.global.unlink mq })

/-- `skynet_mq_push` -/
def mqPush (s : State τ) (q : Mq) (message : Message) :
    Except Fault (State τ) :=
  let mq := (s.mq q).store message
  if mq.inGlobal = false then
    globalPush
      { s with mq := Function.update s.mq q { mq with inGlobal := true } } q
  else .ok { s with mq := Function.update s.mq q mq }

/-- `skynet_mq_mark_release` -/
def markRelease (s : State τ) (q : Mq) : Except Fault (State τ) :=
  if (s.mq q).release then .error .markedTwice
  else
    let s' :=
      { s with mq := Function.update s.mq q { s.mq q with release := true } }
    if (s.mq q).inGlobal = false then globalPush s' q else .ok s'

/-- `skynet_mq_pop`, when its loop ends. -/
def mqPop (s : State τ) (q : Mq) : Option (Option Message × State τ) :=
  (s.mq q).pop.map fun r =>
    (r.1, { s with mq := Function.update s.mq q r.2 })

/-! ## The step of an activation -/

/-- Where the activation goes on after `skynet_context_release`, which
returned `ret`, or after `skynet_mq_release`. -/
def resume (ret : Option Ctx) : After → Pc
  | .done => .idle
  | .newPublish q =>
    match ret with
    | some ctx => .newSetInit ctx q
    | none => .newGlobal q none
  | .newRetire handle q => .retire handle (.newDrop q)
  | .newDrop q => .mqRelease q .done
  | .dispatchNext => .next
  | .dispatchReturn q => .dispatch q

/-- Continue with the given position unless the operation has failed. -/
def andGoto (t : τ) (p : Pc) :
    Except Fault (State τ) → Outcome Fault (State τ)
  | .ok s => .next (s.goto t p)
  | .error f => .fault f

/-- A call that starts with `skynet_handle_grab`. -/
def stepGrab (s : State τ) (t : τ) (handle : ℕ) (found : Ctx → Pc)
    (none : Pc) : Outcome Fault (State τ) :=
  match s.grab handle with
  | some (ctx, s) => .next (s.goto t (found ctx))
  | .none => .next (s.goto t none)

/-- `skynet_context_new` up to and including `skynet_handle_register`. -/
def stepNew (s : State τ) (t : τ) : Outcome Fault (State τ) :=
  let ctx := s.contexts
  match Handle.handleRegister s.handle s.storage ctx with
  | .error f => .fault (.handle f)
  | .ok (storage, handle) => .next <| State.goto
    { s with
      storage
      contexts := ctx + 1
      ref := Function.update s.ref ctx 2
      handle := Function.update s.handle ctx 0
      init := Function.update s.init ctx false
      endless := Function.update s.endless ctx false
      cb := Function.update s.cb ctx false
      issued := Function.update s.issued ctx handle }
    t (.newHandle ctx handle)

/-- `skynet_context_release` -/
def stepRelease (s : State τ) (t : τ) (ctx : Ctx) (k : After) :
    Outcome Fault (State τ) :=
  let s' := { s with ref := Function.update s.ref ctx (s.ref ctx - 1) }
  if s.ref ctx - 1 = 0 then
    .next <| State.goto
      { s' with deleted := Function.update s.deleted ctx (s.deleted ctx + 1) }
      t (.delete ctx k)
  else .next (s'.goto t (resume (some ctx) k))

/-- `delete_context` -/
def stepDelete (s : State τ) (t : τ) (ctx : Ctx) (k : After) :
    Outcome Fault (State τ) :=
  match s.queue ctx with
  | none => .fault .wildQueue
  | some q => andGoto t (resume none k) (s.markRelease q)

/-- `skynet_handle_retire` -/
def stepRetire (s : State τ) (t : τ) (handle : ℕ) (k : After) :
    Outcome Fault (State τ) :=
  match Handle.handleRetire s.handle s.storage handle with
  | (storage, some ctx) => .next <| State.goto
    { s with storage, retired := Function.update s.retired ctx true }
    t (.release ctx k)
  | (_, none) => .next (s.goto t (resume none k))

/-- `skynet_mq_create` of `skynet_context_new`. -/
def stepCreate (s : State τ) (t : τ) (ctx : Ctx) (memory : ℤ → Message) :
    Outcome Fault (State τ) :=
  let q := s.queues
  .next <| State.goto
    { s with
      queues := q + 1
      mq := Function.update s.mq q (Mq.create (s.handle ctx) memory)
      queue := Function.update s.queue ctx (some q) }
    t (.newInit ctx q)

/-- `skynet_mq_release` up to the release of its lock. -/
def stepMqRelease (s : State τ) (t : τ) (q : Mq) (k : After) :
    Outcome Fault (State τ) :=
  if (s.mq q).release then .next (s.goto t (.dropQueue q k))
  else andGoto t (resume none k) (s.globalPush q)

/-- A round of the loop of `_drop_queue`. -/
def stepDrop (s : State τ) (t : τ) (q : Mq) (k : After) :
    Outcome Fault (State τ) :=
  match s.mqPop q with
  | none => .blocked
  | some (some _, s) => .next (s.goto t (.dropQueue q k))
  | some (none, s) => .next (s.goto t (.freeQueue q k))

/-- `_release` -/
def stepFree (s : State τ) (t : τ) (q : Mq) (k : After) :
    Outcome Fault (State τ) :=
  if s.global.next q = none then
    .next <| State.goto
      { s with freed := Function.update s.freed q (s.freed q + 1) }
      t (resume none k)
  else .fault .queueLinked

/-- `skynet_globalmq_pop` of a worker that holds no queue. -/
def stepNext (s : State τ) (t : τ) : Outcome Fault (State τ) :=
  match s.globalPop with
  | .error f => .fault f
  | .ok (some q, s) => .next (s.goto t (.dispatch q))
  | .ok (none, s) => .next (s.goto t .idle)

/-- `skynet_mq_pop` of round `i`. -/
def stepPop (weight : τ → ℤ) (s : State τ) (t : τ) (q : Mq) (ctx : Ctx)
    (i n : ℕ) : Outcome Fault (State τ) :=
  match s.mqPop q with
  | none => .blocked
  | some (none, s) => .next (s.goto t (.release ctx .dispatchNext))
  | some (some message, s) =>
    if i = 0 ∧ weight t ≥ 0 then
      .next (s.goto t (.dispatchLength q ctx message))
    else .next (s.goto t (.dispatchMessage q ctx i n message))

/-- The rest of round `i`: the overload report, and the callback, which
asserts `ctx->init`. -/
def stepMessage (s : State τ) (t : τ) (q : Mq) (ctx : Ctx) (i n : ℕ) :
    Outcome Fault (State τ) :=
  if s.cb ctx ∧ s.init ctx = false then .fault .notInitialised
  else .next <| State.goto
    { s with mq := Function.update s.mq q (s.mq q).takeOverload.2 }
    t (if i + 1 < n then .dispatchPop q ctx (i + 1) n
      else .dispatchDone q ctx)

/-- The assertion after the loop and the `skynet_globalmq_pop` behind it. -/
def stepDone (s : State τ) (t : τ) (q : Mq) (ctx : Ctx) :
    Outcome Fault (State τ) :=
  if s.queue ctx ≠ some q then .fault .queueMismatch
  else
    match s.globalPop with
    | .error f => .fault f
    | .ok (some nq, s) => .next (s.goto t (.dispatchBack q ctx nq))
    | .ok (none, s) => .next (s.goto t (.release ctx (.dispatchReturn q)))

/-- One step of activation `t`; the worker threads have the weights
`weight`. -/
def step (weight : τ → ℤ) (s : State τ) :
    τ × Act → Outcome Fault (State τ)
  | (t, act) =>
    match s.pc t, act with
    | .idle, .push handle message =>
      stepGrab s t handle (fun ctx => .push ctx message) .idle
    | .idle, .endless handle => stepGrab s t handle .endless .idle
    | .idle, .retire handle => .next (s.goto t (.retire handle .done))
    | .idle, .new => stepNew s t
    | .idle, .dispatch => .next (s.goto t .next)
    | .push ctx message, .go =>
      match s.queue ctx with
      | none => .fault .wildQueue
      | some q => andGoto t (.release ctx .done) (s.mqPush q message)
    | .endless ctx, .go => .next <| State.goto
      { s with endless := Function.update s.endless ctx true }
      t (.release ctx .done)
    | .release ctx k, .go => stepRelease s t ctx k
    | .delete ctx k, .go => stepDelete s t ctx k
    | .retire handle k, .go => stepRetire s t handle k
    | .newHandle ctx handle, .go => .next <| State.goto
      { s with handle := Function.update s.handle ctx handle }
      t (.newQueue ctx)
    | .newQueue ctx, .memory m => stepCreate s t ctx m
    | .newInit ctx q, .initReturns ok cb => .next <| State.goto
      { s with cb := Function.update s.cb ctx cb }
      t (if ok then .release ctx (.newPublish q) else .newFailed ctx q)
    | .newFailed ctx q, .go =>
      .next (s.goto t (.release ctx (.newRetire (s.handle ctx) q)))
    | .newSetInit ctx q, .go => .next <| State.goto
      { s with init := Function.update s.init ctx true }
      t (.newGlobal q (some ctx))
    | .newGlobal q ret, .go =>
      andGoto t (match ret with | some ctx => .newLaunched ctx | none => .idle)
        (s.globalPush q)
    | .newLaunched _, .go => .next (s.goto t .idle)
    | .mqRelease q k, .go => stepMqRelease s t q k
    | .dropQueue q k, .go => stepDrop s t q k
    | .freeQueue q k, .go => stepFree s t q k
    | .next, .go => stepNext s t
    | .dispatch q, .go =>
      stepGrab s t (s.mq q).handle (fun ctx => .dispatchPop q ctx 0 1)
        (.mqRelease q .dispatchNext)
    | .dispatchPop q ctx i n, .go => stepPop weight s t q ctx i n
    | .dispatchLength q ctx message, .go =>
      .next (s.goto t (.dispatchMessage q ctx 0 (s.mq q).length.toNat message))
    | .dispatchMessage q ctx i n _, .go => stepMessage s t q ctx i n
    | .dispatchDone q ctx, .go => stepDone s t q ctx
    | .dispatchBack q ctx nq, .go =>
      andGoto t (.release ctx (.dispatchReturn nq)) (s.globalPush q)
    | _, _ => .blocked

end State

end SkynetServer.Service
