import SkynetServer.Coroutine.Scheduler

/-!
# The requests of a service, `skynet.lua`

A coroutine that is created for a request owes its sender an answer.  Its
session, the sender and the tag of its trace are kept in tables beside the
coroutines, which the answer, the end of the coroutine and an error clear.

What the program sends by other functions is left out, and so are the tags
that are written to the trace log.
-/

namespace SkynetServer.Coroutine

open Transition

/-! ## The tables -/

/-- The sender of a message.  `skynet_send` replaces 0 by the own handle. -/
structure Source where
  handle : BitVec 32
  ne_zero : handle ≠ 0
  deriving DecidableEq

inductive Prototype where
  | response
  | error
  deriving DecidableEq, Repr

/-- A value of `session_coroutine_tracetag`. -/
inductive Tag where
  | off
  | received (tag : List UInt8)
  | own (traceid : ℕ)
  deriving DecidableEq, Repr

/-- A request that a coroutine was created for. -/
structure Request where
  co : ℕ
  session : ℕ
  source : Source
  deriving DecidableEq

/-- A call of `c.send`, and the number of the request it is about. -/
structure Sent where
  request : Option ℕ
  dest : Source
  prototype : Prototype
  session : ℕ
  deriving DecidableEq

/-- What a function of `skynet.response` refers to. -/
structure Closure where
  request : Option ℕ
  address : Source
  session : ℕ
  deriving DecidableEq

/-- What `c.send` of a response does: `false` means that it is too large. -/
inductive SendResult where
  | done
  | tooLarge
  | raised
  deriving DecidableEq, Repr

/-- The tables of a service.  `job` is the request that a coroutine serves;
`sent`, `answered` and `failed` say what became of the requests, by their
numbers. -/
structure Tables where
  sessionCoroutineId : ℕ → Option ℕ
  sessionCoroutineAddress : ℕ → Option Source
  sessionCoroutineTracetag : ℕ → Option Tag
  traceSource : Source → Option (List UInt8)
  traceid : ℕ
  unresponse : ℕ → Option Closure
  responses : ℕ
  requests : List Request
  job : ℕ → Option ℕ
  sent : List Sent
  answered : List ℕ
  failed : List ℕ
  exited : Bool

namespace Tables

variable (t : Tables)

/-- `c.send` -/
def send
    (request : Option ℕ)
    (dest : Source)
    (prototype : Prototype)
    (session : ℕ) : Tables :=
  { t with sent := t.sent ++ [⟨request, dest, prototype, session⟩] }

def clearId (co : ℕ) : Tables :=
  { t with sessionCoroutineId := Function.update t.sessionCoroutineId co none }

/-- A response is sent, or an error in place of one that is too large. -/
def reply
    (request : Option ℕ)
    (dest : Source)
    (session : ℕ) : SendResult → Tables
  | .done =>
    { t.send request dest .response session with
      answered := t.answered ++ request.toList }
  | .tooLarge =>
    { t.send request dest .error session with
      answered := t.answered ++ request.toList }
  | .raised => t

/-- `skynet.ret` -/
def ret (co : ℕ) (result : SendResult) : Tables :=
  match t.sessionCoroutineId co, t.sessionCoroutineAddress co with
  | some session, some address =>
    if session = 0 then t.clearId co
    else (t.clearId co).reply (t.job co) address session result
  | _, _ => t.clearId co

/-- `skynet.ignoreret` -/
def ignoreret (co : ℕ) : Tables := t.clearId co

/-- `skynet.response` -/
def response (co : ℕ) : Tables :=
  match t.sessionCoroutineId co, t.sessionCoroutineAddress co with
  | some session, some address =>
    if session = 0 then t.clearId co
    else
      { t.clearId co with
        unresponse := Function.update t.unresponse t.responses
          (some ⟨t.job co, address, session⟩)
        responses := t.responses + 1 }
  | _, _ => t.clearId co

/-- A function that `skynet.response` returned is called; unless `ok`, it sends
an error as for a response that is too large. -/
def respond (n : ℕ) (ok : Bool) (result : SendResult) : Tables :=
  match t.unresponse n with
  | some c =>
    let result := if ok then result else .tooLarge
    if result = .raised then t
    else
      { t.reply c.request c.address c.session result with
        unresponse := Function.update t.unresponse n none }
  | none => t

/-- `skynet.trace` -/
def trace (co : ℕ) : Tables :=
  if t.sessionCoroutineTracetag co = some .off then t
  else
    { t with
      traceid := t.traceid + 1
      sessionCoroutineTracetag :=
        Function.update t.sessionCoroutineTracetag co
          (some (.own (t.traceid + 1))) }

/-- The entries of a request. -/
def enter (co session : ℕ) (source : Source) : Tables :=
  { t with
    sessionCoroutineId :=
      Function.update t.sessionCoroutineId co (some session)
    sessionCoroutineAddress :=
      Function.update t.sessionCoroutineAddress co (some source)
    requests := t.requests ++ [⟨co, session, source⟩]
    job := Function.update t.job co (some t.requests.length) }

/-- The tag of a request, by the `trace` of its protocol. -/
def tag (traceflag : Option Bool) (co : ℕ) (source : Source) : Tables :=
  if traceflag = some false then
    { t with
      traceSource := Function.update t.traceSource source none
      sessionCoroutineTracetag :=
        Function.update t.sessionCoroutineTracetag co (some .off) }
  else
    match t.traceSource source with
    | some tag =>
      { t with
        traceSource := Function.update t.traceSource source none
        sessionCoroutineTracetag :=
          Function.update t.sessionCoroutineTracetag co
            (some (.received tag)) }
    | none => if traceflag = some true then t.trace co else t

/-- `raw_dispatch_message` up to `p.unpack`. -/
def dispatch
    (traceflag : Option Bool)
    (co session : ℕ)
    (source : Source) : Tables :=
  (t.enter co session source).tag traceflag co source

/-- The main function of a coroutine returns. -/
def finish (co : ℕ) : Tables :=
  let t := { t with
    sessionCoroutineTracetag :=
      Function.update t.sessionCoroutineTracetag co none
    job := Function.update t.job co none }
  match t.sessionCoroutineAddress co with
  | some _ =>
    { t.clearId co with
      sessionCoroutineAddress :=
        Function.update t.sessionCoroutineAddress co none }
  | none => t

/-- `suspend` of a coroutine that raised an error; an id never stands without
an address. -/
def suspendError (co : ℕ) : Tables :=
  match t.sessionCoroutineId co, t.sessionCoroutineAddress co with
  | some session, some address =>
    let t := if session = 0 then t else t.send (t.job co) address .error session
    { t.clearId co with
      sessionCoroutineAddress :=
        Function.update t.sessionCoroutineAddress co none
      sessionCoroutineTracetag :=
        Function.update t.sessionCoroutineTracetag co none }
  | _, _ => t

/-- The request of the coroutine has failed, unless it was answered before. -/
def fail (co : ℕ) : Tables :=
  match t.job co with
  | some n =>
    { t with
      failed := if n ∈ t.answered then t.failed else n :: t.failed
      job := Function.update t.job co none }
  | none => t

/-- `_error_dispatch` clears the functions of a sender that is down. -/
def unrespond (source : Source) : Tables :=
  { t with
    unresponse := fun n => (t.unresponse n).filter (·.address ≠ source) }

/-- The coroutine of an error message, from its start to its end. -/
def errorDispatch (co session : ℕ) (source : Source) : Tables :=
  let t := (t.dispatch none co session source).ignoreret co
  (if session = 0 then t.unrespond source else t).finish co

/-- `skynet.exit` reports an error to the sender of this coroutine's request. -/
def exitSession (co : ℕ) : Tables :=
  match t.sessionCoroutineId co, t.sessionCoroutineAddress co with
  | some session, some address =>
    if session = 0 then t else t.send (t.job co) address .error session
  | _, _ => t

/-- `skynet.exit`; the order of `pairs` is any. -/
def exit (cos responses : List ℕ) : Tables :=
  let t := cos.foldl exitSession { t with exited := true }
  responses.foldl (fun t n => t.respond n false .done) t

end Tables

/-! ## Steps -/

/-- The coroutines and the tables of a service. -/
structure Service where
  threads : State
  tables : Tables

namespace Service

/-- What the running coroutine does. -/
inductive Act where
  | op (op : Op)
  | ret (result : SendResult)
  | ignoreret
  | response
  | respond (n : ℕ) (ok : Bool) (result : SendResult)
  | trace
  | exit (cos responses : List ℕ)
  deriving DecidableEq, Repr

/-- A message or a step.  `trace` of a request is that of its protocol, and
`unpacks` says whether `unpack` returns. -/
inductive Label where
  | request (traceflag : Option Bool) (co session : ℕ) (source : Source)
      (unpacks : Bool)
  | error (co session : ℕ) (source : Source) (sessions : List ℕ)
  | response (session : ℕ)
  | trace (source : Source) (tag : List UInt8)
  | undispatched (registered : Bool) (session : ℕ) (source : Source)
  | act (act : Act)
  | scheduler
  deriving DecidableEq

variable (s : Service)

/-- What an operation leaves in the tables. -/
def afterOp (t : Tables) (co : ℕ) : Op → Tables
  | .finish => t.finish co
  | .error _ => (t.suspendError co).fail co
  | _ => t

/-- An act of the coroutine `co`. -/
def runAct (co : ℕ) : Act → Outcome Failure Service
  | .op .exit => .blocked
  | .op op =>
    (s.threads.runOp co op).bind fun threads =>
      .next ⟨threads, afterOp s.tables co op⟩
  | .ret result => .next { s with tables := s.tables.ret co result }
  | .ignoreret => .next { s with tables := s.tables.ignoreret co }
  | .response => .next { s with tables := s.tables.response co }
  | .respond n ok result =>
    .next { s with tables := s.tables.respond n ok result }
  | .trace => .next { s with tables := s.tables.trace co }
  | .exit cos responses =>
    (s.threads.runOp co .exit).bind fun threads =>
      .next ⟨threads, s.tables.exit cos responses⟩

/-- One step of a service. -/
def step : Label → Outcome Failure Service
  | .request traceflag co session source unpacks =>
    (Coroutine.step s.threads (.message (.request co))).bind fun threads =>
      let tables := s.tables.dispatch traceflag co session source
      if unpacks then .next ⟨threads, tables⟩
      else
        -- nothing refers to the coroutine any longer
        .next ⟨State.raise { threads with
          toThreads := threads.setStatus co .dead }, tables.fail co⟩
  | .error co session source sessions =>
    (Coroutine.step s.threads
      (.message (.error session source.handle sessions co))).bind fun threads =>
        .next ⟨threads, s.tables.errorDispatch co session source⟩
  | .response session =>
    (Coroutine.step s.threads (.message (.response session))).bind
      fun threads => .next { s with threads := threads }
  | .trace source tag =>
    (Coroutine.step s.threads (.message .other)).bind fun threads =>
      .next ⟨threads, { s.tables with
        traceSource :=
          Function.update s.tables.traceSource source (some tag) }⟩
  | .undispatched registered session source =>
    (Coroutine.step s.threads (.message .other)).bind fun threads =>
      let tables :=
        if registered then
          { s.tables with
            traceSource := Function.update s.tables.traceSource source none }
        else s.tables
      if session = 0 then .next ⟨threads, tables⟩
      else .next ⟨threads, tables.send none source .error session⟩
  | .act act =>
    match s.threads.control with
    | .run co => s.runAct co act
    | _ => .blocked
  | .scheduler =>
    -- the coroutine of an empty function has no entries to clear
    (Coroutine.step s.threads .scheduler).bind fun threads =>
      .next { s with threads := threads }

/-- A service at its start. -/
def start (session co : ℕ) : Service where
  threads := Coroutine.start session co
  tables :=
    { sessionCoroutineId := fun _ => none
      sessionCoroutineAddress := fun _ => none
      sessionCoroutineTracetag := fun _ => none
      traceSource := fun _ => none
      traceid := 0
      unresponse := fun _ => none
      responses := 0
      requests := []
      job := fun _ => none
      sent := []
      answered := []
      failed := []
      exited := false }

end Service

end SkynetServer.Coroutine
