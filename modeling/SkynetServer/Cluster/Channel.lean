import SkynetServer.Support.Transition
import SkynetServer.Cluster.Packing

/-!
# Responses on a channel in session mode, `socketchannel.lua`

The dispatcher of the channel reads one response after the other and finds
the coroutine that waits for it by its session.  The data of a response with
padding is kept in a table until the last part arrives.  The responses are
those of `cluster.packresponse`, read by `read_response` of the sender.
-/

namespace SkynetServer.Cluster.Session

open Transition

/-! ## The channel -/

/-- A value of `__result_data`. -/
inductive Data where
  | item (data : Item)
  | table (items : List Item)
  deriving DecidableEq, Repr

/-- `__thread`, `__result` and `__result_data`, and of the scheduler the
coroutines that sleep in `wait_for_response` and `wakeup_queue`. -/
structure Channel where
  thread : ℕ → Option ℕ
  result : ℕ → Option Bool
  resultData : ℕ → Option Data
  sleeping : ℕ → Bool
  wakeupQueue : List ℕ

/-- Why the dispatcher ends: `response` returned nothing and the channel is
closed, or `table.insert` raised an error. -/
inductive Failure where
  | closed
  | notTable
  deriving DecidableEq, Repr

namespace Channel

def init : Channel where
  thread := fun _ => none
  result := fun _ => none
  resultData := fun _ => none
  sleeping := fun _ => false
  wakeupQueue := []

/-- `skynet.wakeup` -/
def wakeup (c : Channel) (co : ℕ) : Channel :=
  if c.sleeping co then { c with wakeupQueue := c.wakeupQueue ++ [co] } else c

/-- `table.insert` of the data to the table of the coroutine. -/
def insert (c : Channel) (co : ℕ) (data : Data) (item : Item) :
    Except Failure Channel :=
  match data with
  | .table items => .ok { c with
      resultData := Function.update c.resultData co
        (some (.table (items ++ [item]))) }
  | .item _ => .error .notTable

/-- One turn of `dispatch_by_session` with what `response` returned. -/
def dispatchBySession (c : Channel) : Option Response → Except Failure Channel
  | none => .error .closed
  | some r =>
    match c.thread r.session with
    | some co =>
      if r.padding ∧ r.ok then
        c.insert co ((c.resultData co).getD (.table [])) r.data
      else
        let c := { c with
          thread := Function.update c.thread r.session none
          result := Function.update c.result co (some r.ok) }
        if r.ok then
          match c.resultData co with
          | some data => (c.insert co data r.data).map (·.wakeup co)
          | none =>
            .ok (wakeup { c with
              resultData := Function.update c.resultData co
                (some (.item r.data)) } co)
        else
          .ok (wakeup { c with
            resultData := Function.update c.resultData co
              (some (.item r.data)) } co)
    | none =>
      -- socket: unknown session
      .ok { c with thread := Function.update c.thread r.session none }

/-- `push_response` and `skynet.wait` of `wait_for_response`. -/
def waitForResponse (c : Channel) (response co : ℕ) : Channel :=
  { c with
    thread := Function.update c.thread response (some co)
    sleeping := Function.update c.sleeping co true }

/-- The rest of `wait_for_response`, when the coroutine is resumed. -/
def finish (c : Channel) (co : ℕ) : Channel :=
  { c with
    result := Function.update c.result co none
    resultData := Function.update c.resultData co none
    sleeping := Function.update c.sleeping co false }

end Channel

/-- What the command `req` of the sender makes of the data. -/
def Data.bytes : Data → Option (List UInt8)
  | .item (.msg s) => some s
  | .item (.size _) => none
  | .table items => concat items

/-- The status and the bytes with which a coroutine goes on. -/
structure Outcome where
  co : ℕ
  result : Option Bool
  bytes : Option (List UInt8)
  deriving DecidableEq, Repr

def Channel.outcome (c : Channel) (co : ℕ) : Outcome where
  co := co
  result := c.result co
  bytes := (c.resultData co).bind Data.bytes

/-! ## Calls and their responses -/

/-- A call of `packresponse` for the request of the coroutine. -/
structure Answer where
  co : ℕ
  session : ℕ
  ok : Bool
  msg : List UInt8
  deriving DecidableEq, Repr

/-- What the coroutine shall go on with; an error message has at most
`MULTI_PART` bytes. -/
def Answer.outcome (a : Answer) : Outcome where
  co := a.co
  result := some a.ok
  bytes := some (if a.ok then a.msg else a.msg.take multiPart)

/-- A request that was sent: the agent has not answered yet, or packages of
the response are left. -/
inductive Phase where
  | asked (co : ℕ)
  | answering (a : Answer) (packages : List (List UInt8))
  deriving DecidableEq, Repr

def Phase.co : Phase → ℕ
  | .asked co => co
  | .answering a _ => a.co

/-- The requests by their sessions, the channel, the answers whose last
package was read, and the coroutines that went on. -/
structure State where
  pending : ℕ → Option Phase
  channel : Channel
  delivered : List Answer
  returned : List Outcome

def State.init : State where
  pending := fun _ => none
  channel := .init
  delivered := []
  returned := []

/-- A coroutine sends a request, the agent answers one, the channel reads the
next package of a response, or the next coroutine is woken. -/
inductive Label where
  | request (session co : ℕ)
  | respond (session : ℕ) (ok : Bool) (msg : List UInt8)
  | read (session : ℕ)
  | resume

/-- One step of an interleaving. -/
def step (s : State) : Label → Transition.Outcome Failure State
  | .request session co =>
    if s.channel.sleeping co then .blocked
    else
      .next { s with
        pending := Function.update s.pending session (some (.asked co))
        channel := s.channel.waitForResponse session co }
  | .respond session ok msg =>
    match s.pending session with
    | some (.asked co) =>
      .next { s with
        pending := Function.update s.pending session
          (some (.answering ⟨co, session, ok, msg⟩
            (packresponse session ok msg))) }
    | _ => .blocked
  | .read session =>
    match s.pending session with
    | some (.answering a (package :: packages)) =>
      match s.channel.dispatchBySession (unpackresponse (package.drop 2)) with
      | .error failure => .fault failure
      | .ok channel =>
        if packages = [] then
          .next { s with
            pending := Function.update s.pending session none
            channel := channel
            delivered := s.delivered ++ [a] }
        else
          .next { s with
            pending := Function.update s.pending session
              (some (.answering a packages))
            channel := channel }
    | _ => .blocked
  | .resume =>
    match s.channel.wakeupQueue with
    | [] => .blocked
    | co :: queue =>
      let channel := { s.channel with wakeupQueue := queue }
      if channel.sleeping co then
        .next { s with
          channel := channel.finish co
          returned := s.returned ++ [channel.outcome co] }
      else .next { s with channel := channel }

/-- The session of a request is not in use, and a payload has less than two
gigabytes. -/
def fresh (s : State) : Label → Prop
  | .request session _ => session < 2 ^ 32 ∧ s.pending session = none
  | .respond _ _ msg => msg.length < 2 ^ 31
  | .read _ => True
  | .resume => True

end SkynetServer.Cluster.Session
