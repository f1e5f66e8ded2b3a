import SkynetServer.Support.Transition

/-!
# Requests of unique services, `service_mgr.lua`

Every request runs in a coroutine of its own.  It answers at once, runs the
launch function of its name, or suspends until `skynet.wakeup`.  A label of a
run is a request, the end of a launch function or the resumption of a woken
coroutine; `skynet.suspend` resumes the woken coroutines before the service
takes its next message.

`LIST` and `REPORT` do not write `service` and are left out.  A handle is a
value of any type.
-/

namespace SkynetServer.ServiceMgr

open Transition

/-- A string of Lua. -/
abbrev Str := List UInt8

/-! ## Names -/

def at_ : Str := [64]

def dot : Str := [46]

def snaxd : Str := [115, 110, 97, 120, 100]

def read_name (service_name : Str) : Str :=
  if service_name.head? = some 64 then service_name.tail else service_name

/-- The command which `waitfor_remote` sends to `SERVICE`. -/
inductive Remote where
  | LAUNCH
  | QUERY
  deriving DecidableEq, Repr

/-- A launch function with its arguments. -/
inductive Func where
  | rawnewservice (subname : Str) (args : List Str)
  | newservice (realname : Str) (args : List Str)
  | call (cmd : Remote) (global_name : Str) (args : List Str)
  deriving DecidableEq, Repr

inductive Command where
  | LAUNCH (service_name : Str) (args : List Str)
  | QUERY (service_name : Str) (args : List Str)
  | GLAUNCH (name : Str) (args : List Str)
  | GQUERY (name : Str) (args : List Str)
  deriving DecidableEq, Repr

/-- `cmd.LAUNCH`: the arguments of `waitfor`.  The first of `args` is
`subname`; without it the name of a snax service cannot be built. -/
def cmdLAUNCH
    (service_name : Str) (args : List Str) : Option (Str × Option Func) :=
  let realname := read_name service_name
  if realname = snaxd then
    match args with
    | [] => none
    | subname :: rest =>
      some (service_name ++ dot ++ subname, some (.rawnewservice subname rest))
  else some (service_name, some (.newservice realname args))

def cmdQUERY
    (service_name : Str) (args : List Str) : Option (Str × Option Func) :=
  let realname := read_name service_name
  if realname = snaxd then
    match args with
    | [] => none
    | subname :: _ => some (service_name ++ dot ++ subname, none)
  else some (service_name, none)

def waitfor_remote
    (cmd : Remote) (name : Str) (args : List Str) :
    Option (Str × Option Func) :=
  let global_name := at_ ++ name
  if name = snaxd then
    match args with
    | [] => none
    | subname :: _ =>
      some (global_name ++ dot ++ subname, some (.call cmd global_name args))
  else some (global_name, some (.call cmd global_name args))

/-- The name and the launch function that a command passes to `waitfor`.
`standalone` selects `register_global` or `register_local`. -/
def Command.target
    (standalone : Bool) : Command → Option (Str × Option Func)
  | .LAUNCH service_name args => cmdLAUNCH service_name args
  | .QUERY service_name args => cmdQUERY service_name args
  | .GLAUNCH name args =>
    if standalone then cmdLAUNCH (at_ ++ name) args
    else waitfor_remote .LAUNCH name args
  | .GQUERY name args =>
    if standalone then cmdQUERY (at_ ++ name) args
    else waitfor_remote .QUERY name args

/-! ## Requests -/

/-- A value of the table `service`. -/
inductive Slot (H : Type*) where
  | nil
  | table (launch : Option ℕ) (waiters : List ℕ)
  | number (handle : H)
  | string (e : Str)

/-- How a launch function ends, under `pcall`. -/
inductive Result (H : Type*) where
  | handle (handle : H)
  | nil
  | error (e : Str)

/-- An error which the `pcall` of the dispatch function catches: `error` at
a line, a failed `assert`, or the concatenation of a missing `subname`. -/
inductive Failure where
  | raised (line : ℕ) (e : Str)
  | assertion
  | concat
  deriving DecidableEq, Repr

/-- What the dispatch function packs for the requester. -/
inductive Answer (H : Type*) where
  | pack (r : Option H)
  | failure (f : Failure)

/-- What a coroutine does; `answered` keeps the name it was started for. -/
inductive Task (H : Type*) where
  | absent
  | launching (name : Str) (func : Func)
  | waiting (name : Str)
  | answered (name : Option Str) (a : Answer H)

/-- The table `service`, the coroutines, and the launches that were started
and ended so far. -/
structure Manager (H : Type*) where
  service : Str → Slot H
  task : ℕ → Task H
  wakeup_queue : List ℕ
  launched : List Str
  ended : List (Str × Result H)

variable {H : Type*}

def Manager.init : Manager H where
  service _ := .nil
  task _ := .absent
  wakeup_queue := []
  launched := []
  ended := []

/-- What `request` stores for a result. -/
def Result.slot : Result H → Slot H
  | .handle h => .number h
  | .nil => .nil
  | .error e => .string e

/-- What `request` returns for a result. -/
def Result.answer : Result H → Answer H
  | .handle h => .pack (some h)
  | .nil => .pack none
  | .error e => .failure (.raised 25 e)

def Manager.setTask
    (m : Manager H) (co : ℕ) (t : Task H) : Manager H :=
  { m with task := Function.update m.task co t }

def Manager.setService
    (m : Manager H) (name : Str) (v : Slot H) : Manager H :=
  { m with service := Function.update m.service name v }

/-- `skynet.wakeup` of every waiter which is suspended in `skynet.wait`. -/
def Manager.wakeup (m : Manager H) (waiters : List ℕ) : Manager H :=
  { m with
    wakeup_queue := m.wakeup_queue ++ waiters.filter fun co =>
      match m.task co with
      | .waiting _ => true
      | _ => false }

/-- `waitfor` with a table at the name: launch, or wait. -/
def Manager.join
    (m : Manager H) (co : ℕ) (name : Str) (func : Option Func)
    (launch : Option ℕ) (waiters : List ℕ) : Manager H :=
  match launch, func with
  | none, some f =>
    { (m.setService name (.table (some co) waiters)).setTask co
        (.launching name f) with launched := m.launched ++ [name] }
  | launch, _ =>
    (m.setService name (.table launch (waiters ++ [co]))).setTask co
      (.waiting name)

/-- `waitfor` up to the first suspension. -/
def Manager.waitfor
    (m : Manager H) (co : ℕ) (name : Str) (func : Option Func) : Manager H :=
  match m.service name with
  | .number h => m.setTask co (.answered (some name) (.pack (some h)))
  | .string e =>
    m.setTask co (.answered (some name) (.failure (.raised 40 e)))
  | .nil => m.join co name func none []
  | .table launch waiters => m.join co name func launch waiters

/-- The rest of `waitfor` after `skynet.wait`. -/
def Slot.reread : Slot H → Answer H
  | .string e => .failure (.raised 64 e)
  | .number h => .pack (some h)
  | _ => .failure .assertion

/-- A request, the end of the launch function of a coroutine, and the
resumption of the first woken coroutine. -/
inductive Label (H : Type*) where
  | dispatch (co : ℕ) (command : Command)
  | finish (co : ℕ) (r : Result H)
  | resume

/-- `assert(type(s) == "table")` of `request` fails. -/
inductive Fault where
  | table

/-- The rest of `request` after `pcall`. -/
def Manager.request
    (m : Manager H) (co : ℕ) (name : Str) (r : Result H) :
    Outcome Fault (Manager H) :=
  match m.service name with
  | .table _ waiters =>
    .next { ((m.setService name r.slot).wakeup waiters).setTask co
      (.answered (some name) r.answer) with
      ended := m.ended ++ [(name, r)] }
  | _ => .fault .table

def step (standalone : Bool) (m : Manager H) :
    Label H → Outcome Fault (Manager H)
  | .dispatch co command =>
    match m.wakeup_queue, m.task co with
    | [], .absent =>
      match command.target standalone with
      | none => .next (m.setTask co (.answered none (.failure .concat)))
      | some (name, func) => .next (m.waitfor co name func)
    | _, _ => .blocked
  | .finish co r =>
    match m.wakeup_queue, m.task co with
    | [], .launching name _ => m.request co name r
    | _, _ => .blocked
  | .resume =>
    match m.wakeup_queue with
    | [] => .blocked
    | co :: rest =>
      match m.task co with
      | .waiting name =>
        .next { m.setTask co
          (.answered (some name) (m.service name).reread) with
          wakeup_queue := rest }
      | _ => .next { m with wakeup_queue := rest }

end SkynetServer.ServiceMgr
