import SkynetServer.Support.Transition

/-!
# The coroutines of a service, `skynet.lua`

A service handles one message after the other.  Its coroutines suspend in
`skynet.sleep`, `skynet.wait` and `skynet.call`, and are resumed by a response
(of the timer or of another service), by `skynet.wakeup` or by an error.  A
label of a run is a message, an operation of the running coroutine or a step
of the scheduler itself, so that the coroutines may be any programs.

What is sent to other services, the tags of traces and the errors which
`dispatch_message` collects are left out.
-/

namespace SkynetServer.Coroutine

open Transition

/-! ## Coroutines -/

/-- A token of `skynet.wakeup`: a coroutine, or any other value. -/
inductive Token where
  | thread (co : ℕ)
  | value (n : ℕ)
  deriving DecidableEq, Repr

/-- The first argument of `skynet.call`. -/
inductive Address where
  | handle (handle : BitVec 32)
  | name (name : List UInt8)
  deriving DecidableEq, Repr

/-- The function in which a coroutine is suspended.  `dest` is the service
that a call was sent to. -/
inductive Kind where
  | sleep (token : Token)
  | wait (token : Token)
  | call (service : Address) (dest : BitVec 32)
  deriving DecidableEq, Repr

/-- A suspension of a coroutine; each has a number of its own. -/
structure Wait where
  serial : ℕ
  session : ℕ
  kind : Kind
  deriving DecidableEq, Repr

/-- What a coroutine does.  A ready one is in `fork_queue`, with a function or
with the empty one of `suspend`, or starts with the response of a timer. -/
inductive Status where
  | absent
  | ready
  | empty
  | timer (session : ℕ)
  | running
  | waiting (wait : Wait)
  | pooled
  | dead
  | quit
  deriving DecidableEq, Repr

/-- A value of `session_id_coroutine`: a coroutine or `"BREAK"`. -/
inductive Entry where
  | co (co : ℕ)
  | break
  deriving DecidableEq, Repr

/-- Why a coroutine is resumed. -/
inductive Cause where
  | response (session : ℕ)
  | wakeup (token : Token)
  | error (session : ℕ)
  | fork
  deriving DecidableEq, Repr

/-- The tables, the coroutines, how many suspensions there were, and those
that ended. -/
structure Threads where
  sessionIdCoroutine : ℕ → Option Entry
  sleepSession : Token → Option ℕ
  watchingSession : ℕ → Option Address
  status : ℕ → Status
  waits : ℕ
  resumed : List (Wait × Cause)

/-- Where the scheduler is. -/
inductive Control where
  | idle
  | run (co : ℕ)
  | wakeup
  | error
  | forks
  deriving DecidableEq, Repr

/-- The state of a service.  `frames` counts the calls of `suspend` whose
`dispatch_wakeup` has not returned, and `woken` holds the suspensions for
which `skynet.wakeup` returned true. -/
structure State extends Threads where
  wakeupQueue : List Token
  errorQueue : List ℕ
  forkQueue : List ℕ
  control : Control
  frames : ℕ
  woken : List ℕ

/-- A coroutine is resumed that is not suspended. -/
inductive Failure where
  | notSuspended (co : ℕ)
  deriving DecidableEq, Repr

/-! ## Suspending and resuming -/

namespace Threads

variable (t : Threads)

/-- `suspend_sleep` up to its `assert`. -/
def setSession (session co : ℕ) : Threads :=
  { t with sessionIdCoroutine :=
      Function.update t.sessionIdCoroutine session (some (.co co)) }

/-- The coroutine yields. -/
def suspendIn (co session : ℕ) (kind : Kind) : Threads :=
  { t with
    status := Function.update t.status co (.waiting ⟨t.waits, session, kind⟩)
    waits := t.waits + 1 }

/-- What the function does when the coroutine is resumed in it. -/
def endWait (w : Wait) : Threads :=
  match w.kind with
  | .sleep token =>
    { t with sleepSession := Function.update t.sleepSession token none }
  | .wait token =>
    { t with
      sleepSession := Function.update t.sleepSession token none
      sessionIdCoroutine :=
        Function.update t.sessionIdCoroutine w.session none }
  | .call _ _ =>
    { t with watchingSession :=
        Function.update t.watchingSession w.session none }

/-- The coroutine runs. -/
def setStatus (co : ℕ) (status : Status) : Threads :=
  { t with status := Function.update t.status co status }

end Threads

namespace State

variable (s : State)

/-- `suspend` returns: to `dispatch_message`, or to a call of `suspend` that
goes on with `dispatch_error_queue`. -/
def suspendReturn : State :=
  match s.frames with
  | 0 => { s with control := .forks }
  | frames + 1 => { s with frames := frames, control := .error }

/-- An error is raised up to `dispatch_message`. -/
def raise : State := { s with frames := 0, control := .forks }

/-- `coroutine_resume` -/
def coroutineResume (co : ℕ) (cause : Cause) : Outcome Failure State :=
  match s.status co with
  | .waiting w =>
    .next { s with
      toThreads := { (s.endWait w).setStatus co .running with
        resumed := s.resumed ++ [(w, cause)] }
      control := .run co }
  | .timer _ =>
    .next { s with
      toThreads := s.setStatus co .running
      control := .run co }
  | .ready =>
    .next { s with
      toThreads := s.setStatus co .running
      control := .run co }
  | .empty =>
    .next { s with
      toThreads := s.setStatus co .pooled
      control := .wakeup }
  | _ => .fault (.notSuspended co)

/-- `co_create` takes a coroutine that does not exist or that has finished. -/
def canCreate (co : ℕ) : Bool :=
  s.status co = .absent ∨ s.status co = .pooled

/-- `dispatch_wakeup` -/
def dispatchWakeup : Outcome Failure State :=
  match s.wakeupQueue with
  | [] => .next { s with control := .error }
  | token :: queue =>
    let s := { s with wakeupQueue := queue }
    match s.sleepSession token with
    | some session =>
      let broken := { s with
        sessionIdCoroutine :=
          Function.update s.sessionIdCoroutine session (some .break) }
      match s.sessionIdCoroutine session with
      | some (.co co) =>
        State.coroutineResume { broken with frames := s.frames + 1 } co
          (.wakeup token)
      | _ => .next broken.raise
    | none => .next { s with control := .error }

/-- `dispatch_error_queue` -/
def dispatchErrorQueue : Outcome Failure State :=
  match s.errorQueue with
  | [] => .next s.suspendReturn
  | session :: queue =>
    let removed := { s with
      errorQueue := queue
      sessionIdCoroutine :=
        Function.update s.sessionIdCoroutine session none }
    match s.sessionIdCoroutine session with
    | some (.co co) => removed.coroutineResume co (.error session)
    | _ => .next removed.raise

/-- The loop of `dispatch_message`. -/
def dispatchForks : Outcome Failure State :=
  match s.forkQueue with
  | [] => .next { s with control := .idle }
  | co :: queue =>
    State.coroutineResume { s with forkQueue := queue } co .fork

end State

/-! ## Labels -/

/-- A message: a response, a request for a new coroutine, an error, or one
that starts no coroutine. -/
inductive Message where
  | response (session : ℕ)
  | request (co : ℕ)
  | error (session : ℕ) (source : BitVec 32) (sessions : List ℕ) (co : ℕ)
  | other
  deriving DecidableEq, Repr

/-- What a running coroutine does. -/
inductive Op where
  | wakeup (token : Token)
  | fork (co : ℕ)
  | timeout (session co : ℕ)
  | sleep (session : ℕ) (token : Option Token)
  | wait (session : ℕ) (token : Option Token)
  | call (session : ℕ) (service : Address) (dest : BitVec 32)
  | finish
  | error (trigger : ℕ)
  | exit
  deriving DecidableEq, Repr

inductive Label where
  | message (message : Message)
  | op (op : Op)
  | scheduler
  deriving DecidableEq, Repr

/-! ## Steps -/

namespace State

variable (s : State)

/-- `_error_dispatch`; the order of `pairs` is any. -/
def errorDispatch (errorSession : ℕ) (sessions : List ℕ) : State :=
  if errorSession = 0 then
    { s with errorQueue := s.errorQueue ++ sessions }
  else
    match s.watchingSession errorSession with
    | some _ => { s with errorQueue := s.errorQueue ++ [errorSession] }
    | none => s

/-- `raw_dispatch_message` until a coroutine runs. -/
def rawDispatchMessage : Message → Outcome Failure State
  | .response session =>
    match s.sessionIdCoroutine session with
    | some .break =>
      .next { s with
        sessionIdCoroutine :=
          Function.update s.sessionIdCoroutine session none
        control := .forks }
    | none => .next s.raise
    | some (.co co) =>
      State.coroutineResume { s with
        sessionIdCoroutine :=
          Function.update s.sessionIdCoroutine session none }
        co (.response session)
  | .request co =>
    if s.canCreate co then
      .next { s with
        toThreads := s.setStatus co .running
        control := .run co }
    else .blocked
  | .error session _ sessions co =>
    if s.canCreate co then
      .next { s.errorDispatch session sessions with
        toThreads := s.setStatus co .pooled
        control := .wakeup }
    else .blocked
  | .other => .next { s with control := .forks }

/-- The suspension with the session. -/
def sleeper (session : ℕ) : Option ℕ :=
  match s.sessionIdCoroutine session with
  | some (.co co) =>
    match s.status co with
    | .waiting w => some w.serial
    | _ => none
  | _ => none

/-- `skynet.wakeup` -/
def wakeup (token : Token) : State :=
  match s.sleepSession token with
  | some session =>
    { s with
      wakeupQueue := s.wakeupQueue ++ [token]
      woken := s.woken ++ (s.sleeper session).toList }
  | none => s

/-- `suspend_sleep` in `skynet.sleep` or `skynet.wait`. -/
def suspendSleep (co session : ℕ) (token : Token) (kind : Kind) : State :=
  let t := s.setSession session co
  if t.sleepSession token = none then
    { s with
      toThreads :=
        { t with sleepSession :=
            Function.update t.sleepSession token (some session) }.suspendIn
          co session kind
      control := .wakeup }
  else
    -- token duplicative: the program may catch the error
    { s with toThreads := t }

/-- An operation of the running coroutine. -/
def runOp (co : ℕ) : Op → Outcome Failure State
  | .wakeup token => .next (s.wakeup token)
  | .fork co' =>
    if s.canCreate co' then
      .next { s with
        toThreads := s.setStatus co' .ready
        forkQueue := s.forkQueue ++ [co'] }
    else .blocked
  | .timeout session co' =>
    if s.canCreate co' ∧ s.sessionIdCoroutine session = none then
      .next { s with
        toThreads := (s.setSession session co').setStatus co'
          (.timer session) }
    else .blocked
  | .sleep session token =>
    let token := token.getD (.thread co)
    .next (s.suspendSleep co session token (.sleep token))
  | .wait session token =>
    let token := token.getD (.thread co)
    .next (s.suspendSleep co session token (.wait token))
  | .call session service dest =>
    .next { s with
      toThreads :=
        { s.setSession session co with
          watchingSession := Function.update s.watchingSession session
            (some service) }.suspendIn co session (.call service dest)
      control := .wakeup }
  | .finish =>
    .next { s with
      toThreads := s.setStatus co .pooled
      control := .wakeup }
  | .error trigger =>
    if s.canCreate trigger then
      .next { s with
        toThreads := (s.setStatus co .dead).setStatus trigger .empty
        forkQueue := s.forkQueue ++ [trigger]
        frames := 0
        control := .forks }
    else .blocked
  | .exit =>
    .next { s with
      toThreads := s.setStatus co .quit
      forkQueue := [] }.suspendReturn

end State

/-- One step of a service. -/
def step (s : State) : Label → Outcome Failure State
  | .message message =>
    match s.control with
    | .idle => s.rawDispatchMessage message
    | _ => .blocked
  | .op op =>
    match s.control with
    | .run co => s.runOp co op
    | _ => .blocked
  | .scheduler =>
    match s.control with
    | .wakeup => s.dispatchWakeup
    | .error => s.dispatchErrorQueue
    | .forks => s.dispatchForks
    | _ => .blocked

/-- `skynet.start`: the first coroutine waits for a timer. -/
def start (session co : ℕ) : State where
  sessionIdCoroutine :=
    Function.update (fun _ => none) session (some (.co co))
  sleepSession := fun _ => none
  watchingSession := fun _ => none
  status := Function.update (fun _ => .absent) co (.timer session)
  waits := 0
  resumed := []
  wakeupQueue := []
  errorQueue := []
  forkQueue := []
  control := .idle
  frames := 0
  woken := []

end SkynetServer.Coroutine
