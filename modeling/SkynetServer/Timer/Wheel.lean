import Mathlib.Algebra.Group.Nat.Defs
import SkynetServer.Support.Transition

/-!
# The timer wheel of `skynet_timer.c`

Five wheels of lists hold the pending timer nodes: `near` has one list for
each value of the low eight bits of the clock, and each of the four levels of
`t` has one list for each value of the next six bits.  A node is filed by
`addNode` according to the highest bits in which its deadline differs from the
clock, and is filed again by `moveList` when the clock reaches its list.

Worker threads call `timerAdd` under the timer's lock.  The timer thread runs
`timer_update`, which drops that lock while it dispatches a list, so the
states between two labels below are exactly those in which the lock is free.
-/

namespace SkynetServer.TimerWheel

open Transition

/-! ## Constants -/

/-- `TIME_NEAR_SHIFT` -/
def timeNearShift : ℕ := 8

/-- `TIME_NEAR` -/
def timeNear : ℕ := 1 <<< timeNearShift

/-- `TIME_LEVEL_SHIFT` -/
def timeLevelShift : ℕ := 6

/-- `TIME_LEVEL` -/
def timeLevel : ℕ := 1 <<< timeLevelShift

/-- `TIME_NEAR_MASK` -/
def timeNearMask : ℕ := timeNear - 1

/-- `TIME_LEVEL_MASK` -/
def timeLevelMask : ℕ := timeLevel - 1

/-- Largest delay of an `int` parameter. -/
def intMax : ℕ := 2 ^ 31 - 1

/-! ## Data -/

/-- `struct timer_event` -/
structure TimerEvent where
  handle : ℕ
  session : ℤ
  deriving DecidableEq, Repr

/-- `struct timer_node` with its event.  The last three fields are ghosts:
the number of the `timer_add` call that made the node, the number of ticks
that had passed at that call, and the delay it was given. -/
structure TimerNode where
  expire : ℕ
  event : TimerEvent
  serial : ℕ
  addedAt : ℕ
  delay : ℕ
  deriving DecidableEq, Repr

/-- The tick in which the node is to be dispatched. -/
def TimerNode.due (x : TimerNode) : ℕ := x.addedAt + x.delay

/-- `struct timer`; a linked list is the list of its nodes from head to
tail, and `time` is a `uint32_t`. -/
structure Timer where
  near : ℕ → List TimerNode
  t : ℕ → ℕ → List TimerNode
  time : ℕ

/-! ## Filing nodes -/

/-- `link(&T->near[i], node)` -/
def Timer.linkNear (T : Timer) (i : ℕ) (node : TimerNode) : Timer :=
  { T with near := Function.update T.near i (T.near i ++ [node]) }

/-- `T->t[i][j]` replaced by `nodes`. -/
def Timer.setLevel
    (T : Timer) (i j : ℕ) (nodes : List TimerNode) : Timer :=
  { T with
    t := Function.update T.t i (Function.update (T.t i) j nodes) }

/-- `link(&T->t[i][j], node)` -/
def Timer.linkLevel (T : Timer) (i j : ℕ) (node : TimerNode) : Timer :=
  T.setLevel i j (T.t i j ++ [node])

/-- The `for` loop of `add_node` with `n` iterations left: the first level
whose list covers both the deadline and the clock, or the last level. -/
def levelLoop (time currentTime : ℕ) : ℕ → ℕ → ℕ → ℕ
  | 0, i, _ => i
  | n + 1, i, mask =>
    if time ||| (mask - 1) = currentTime ||| (mask - 1) then i
    else levelLoop time currentTime n (i + 1) (mask <<< timeLevelShift)

/-- `add_node` -/
def addNode (T : Timer) (node : TimerNode) : Timer :=
  let time := node.expire
  let currentTime := T.time
  if time ||| timeNearMask = currentTime ||| timeNearMask then
    T.linkNear (time &&& timeNearMask) node
  else
    let i := levelLoop time currentTime 3 0 (timeNear <<< timeLevelShift)
    T.linkLevel i
      ((time >>> (timeNearShift + i * timeLevelShift)) &&& timeLevelMask)
      node

/-- `move_list` -/
def moveList (T : Timer) (level idx : ℕ) : Timer :=
  (T.t level idx).foldl addNode (T.setLevel level idx [])

/-- The `while` loop of `timer_shift` with at most `n` iterations left: the
level and index whose list it moves, if any. -/
def shiftLoop (ct : ℕ) : ℕ → ℕ → ℕ → ℕ → Option (ℕ × ℕ)
  | 0, _, _, _ => none
  | n + 1, i, mask, time =>
    if ct &&& (mask - 1) = 0 then
      let idx := time &&& timeLevelMask
      if idx ≠ 0 then some (i, idx)
      else shiftLoop ct n (i + 1) (mask <<< timeLevelShift)
        (time >>> timeLevelShift)
    else none

/-- The list that `timer_shift` moves when the clock becomes `ct`. -/
def shiftTarget (ct : ℕ) : Option (ℕ × ℕ) :=
  if ct = 0 then some (3, 0)
  else shiftLoop ct 4 0 timeNear (ct >>> timeNearShift)

/-- `timer_shift` -/
def timerShift (T : Timer) : Timer :=
  let ct := (T.time + 1) % 2 ^ 32
  let T' := { T with time := ct }
  match shiftTarget ct with
  | some (level, idx) => moveList T' level idx
  | none => T'

/-! ## The timer thread and its interleavings -/

/-- Which of the two calls of `timer_execute` in `timer_update`. -/
inductive Round where
  | first
  | second
  deriving DecidableEq, Repr

/-- Where the timer thread is while the lock is free: outside
`timer_update`, or in `dispatch_list` with the nodes not yet dispatched. -/
inductive Phase where
  | idle
  | dispatching (round : Round) (current : List TimerNode)
  deriving DecidableEq, Repr

/-- Ghost record of a node being passed to `dispatch_list`: the number of
ticks and the value of `T->time` then. -/
structure Passing where
  node : TimerNode
  tick : ℕ
  time : ℕ
  deriving DecidableEq, Repr

/-- The timer with its thread.  `ticks`, `added` and `passed` are ghosts:
the number of calls of `timer_shift`, the nodes made by `timer_add` and the
nodes passed to `dispatch_list`.  `pushed` lists the events for which
`dispatch_list` has called `skynet_context_push`. -/
structure State where
  timer : Timer
  phase : Phase
  ticks : ℕ
  added : List TimerNode
  passed : List Passing
  pushed : List TimerEvent

/-- `timer_create_timer` -/
def init : State where
  timer := { near := fun _ => [], t := fun _ _ => [], time := 0 }
  phase := .idle
  ticks := 0
  added := []
  passed := []
  pushed := []

/-- The node that `timer_add` allocates. -/
def newNode (s : State) (event : TimerEvent) (time : ℕ) : TimerNode where
  expire := (time + s.timer.time) % 2 ^ 32
  event := event
  serial := s.added.length
  addedAt := s.ticks
  delay := time

/-- `timer_add` -/
def timerAdd (s : State) (event : TimerEvent) (time : ℕ) : State :=
  { s with
    timer := addNode s.timer (newNode s event time)
    added := s.added ++ [newNode s event time] }

/-- `timer_shift`, counted. -/
def State.shift (s : State) : State :=
  { s with timer := timerShift s.timer, ticks := s.ticks + 1 }

/-- `T->time & TIME_NEAR_MASK` -/
def State.idx (s : State) : ℕ := s.timer.time &&& timeNearMask

/-- Body of the loop of `timer_execute`: unlink the list of the current
slot, drop the lock and call `dispatch_list`. -/
def State.take (s : State) (round : Round) : State :=
  let current := s.timer.near s.idx
  { s with
    timer :=
      { s.timer with near := Function.update s.timer.near s.idx [] }
    passed :=
      s.passed ++ current.map fun x => ⟨x, s.ticks, s.timer.time⟩
    phase := .dispatching round current }

/-- Loop head of the second `timer_execute`; when its slot is empty,
`timer_update` returns. -/
def executeSecond (s : State) : State :=
  if s.timer.near s.idx = [] then { s with phase := .idle }
  else s.take .second

/-- Loop head of the first `timer_execute`; when its slot is empty, the
clock is shifted and the second one is entered, all under the lock. -/
def executeFirst (s : State) : State :=
  if s.timer.near s.idx = [] then executeSecond s.shift
  else s.take .first

/-- Loop head of the given call of `timer_execute`. -/
def timerExecute (s : State) : Round → State
  | .first => executeFirst s
  | .second => executeSecond s

/-- `add` is a `timer_add` call of any worker, `update` the timer thread
entering `timer_update`, and `deliver` one iteration of `dispatch_list`,
after the last of which the lock is taken again. -/
inductive Label where
  | add (event : TimerEvent) (time : ℕ)
  | update
  | deliver
  deriving DecidableEq, Repr

/-- One step of an interleaving. -/
def step (s : State) : Label → Outcome Empty State
  | .add event time => .next (timerAdd s event time)
  | .update =>
    match s.phase with
    | .idle => .next (executeFirst s)
    | .dispatching _ _ => .blocked
  | .deliver =>
    match s.phase with
    | .dispatching round (x :: rest) =>
      let s' := { s with pushed := s.pushed ++ [x.event] }
      match rest with
      | [] => .next (timerExecute s' round)
      | _ :: _ => .next { s' with phase := .dispatching round rest }
    | _ => .blocked

/-- Delays are those with which `skynet_timeout` calls `timer_add`. -/
def validDelay (_ : State) : Label → Prop
  | .add _ time => 1 ≤ time ∧ time ≤ intMax
  | _ => True

end SkynetServer.TimerWheel
