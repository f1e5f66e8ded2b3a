import SkynetServer.Support.PathTree
import SkynetServer.Support.Transition

/-!
# `datacenterd.lua`

The data and the requests of `WAIT` are kept in two trees of tables.  A label
of a run is a request; the service handles one after the other, and none of
its handlers yields.

The arguments of a request are values of Lua which are not tables, and are
keys and values alike.  A key of a path is never nil.
-/

namespace SkynetServer.Datacenter

open Transition

/-- A value of Lua other than nil and a table. -/
inductive Lua (A : Type*) where
  | false
  | atom (a : A)
  deriving DecidableEq, Repr

variable {A : Type*}

/-- `database` or a value in it. -/
abbrev Data (A : Type*) := PathTree (Lua A) (Lua A)

/-- `wait_queue` or a value in it: a leaf is a table whose `mode` is
`"queue"`, and a node one whose `mode` is `"branch"`.  A response is known by
the number of its request. -/
abbrev Queues (A : Type*) := PathTree (Lua A) (List ℕ)

/-- A table, by its keys. -/
abbrev Table (T : Type*) (A : Type*) := Lua A → T

/-- A condition holds neither for nil nor for false. -/
def truthy : Data A → Bool
  | .nil => Bool.false
  | .leaf .false => Bool.false
  | _ => true

/-- `query`; `none` is an index into a value that is not a table. -/
def query : Data A → List (Lua A) → Option (Data A)
  | db, [] => some db
  | .node f, key :: rest => query (f key) rest
  | .nil, _ :: _ => none
  | .leaf _, _ :: _ => none

/-- `command.QUERY` -/
def QUERY
    (database : Table (Data A) A) (key : Lua A) (rest : List (Lua A)) :
    Option (Data A) :=
  let d := database key
  if truthy d then query d rest else some .nil

/-- A value that `db[key] = value` stores. -/
def ofValue : Option (Lua A) → Data A
  | none => .nil
  | some v => .leaf v

variable [DecidableEq A]

/-- `update` of the value behind the last key; `none` is an index into a value
that is not a table. -/
def update (db : Table (Data A) A) (key : Lua A) :
    List (Lua A) → Option (Lua A) → Option (Table (Data A) A × Data A)
  | [], value => some (Function.update db key (ofValue value), db key)
  | key' :: rest, value =>
    -- db[key], or the new table
    match (db key).children with
    | none => none
    | some sub =>
      match update sub key' rest value with
      | none => none
      | some (sub, ret) => some (Function.update db key (.node sub), ret)

/-- What `wakeup` does to the tree, the queue it returns, and the queue that
it answers with `response(false)`. -/
structure Wakeup (A : Type*) where
  db : Table (Queues A) A
  queue : Option (List ℕ)
  failed : List ℕ

def wakeup (db : Table (Queues A) A) : List (Lua A) → Wakeup A
  | [] => ⟨db, none, []⟩
  | key1 :: rest =>
    match db key1 with
    | .nil => ⟨db, none, []⟩
    | .leaf q =>
      if rest.length ≠ 1 then ⟨Function.update db key1 .nil, none, q⟩
      else ⟨Function.update db key1 .nil, some q, []⟩
    | .node sub =>
      let w := wakeup sub rest
      ⟨Function.update db key1 (.node w.db), w.queue, w.failed⟩

/-- `waitfor`; `none` is an assertion that fails. -/
def waitfor (db : Table (Queues A) A) (key1 : Lua A) :
    List (Lua A) → ℕ → Option (Table (Queues A) A)
  | [], r =>
    match db key1 with
    | .nil => some (Function.update db key1 (.leaf [r]))
    | .leaf q => some (Function.update db key1 (.leaf (q ++ [r])))
    | .node _ => none
  | key2 :: rest, r =>
    match (db key1).children with
    | none => none
    | some sub =>
      match waitfor sub key2 rest r with
      | none => none
      | some sub => some (Function.update db key1 (.node sub))

/-! ## Requests -/

/-- What a requester gets: the values that are returned, `response(false)`,
or the error of the handler. -/
inductive Reply (A : Type*) where
  | nil
  | value (v : Lua A)
  | table
  | refused
  | error
  deriving DecidableEq, Repr

def Reply.of : Data A → Reply A
  | .nil => .nil
  | .leaf v => .value v
  | .node _ => .table

/-- The two trees, the replies to `WAIT` and to the other requests; the
numbers of the requests and the paths that were used so far. -/
structure Center (A : Type*) where
  database : Table (Data A) A
  wait_queue : Table (Queues A) A
  answers : List (ℕ × Reply A)
  results : List (ℕ × Reply A)
  requests : List ℕ
  paths : List (List (Lua A))

def Center.init : Center A where
  database _ := .nil
  wait_queue _ := .nil
  answers := []
  results := []
  requests := []
  paths := []

/-- A request with its number, the first key and the rest of its path. -/
inductive Request (A : Type*) where
  | QUERY (r : ℕ) (key : Lua A) (rest : List (Lua A))
  | UPDATE (r : ℕ) (key : Lua A) (rest : List (Lua A)) (value : Option (Lua A))
  | WAIT (r : ℕ) (key : Lua A) (rest : List (Lua A))
  deriving DecidableEq, Repr

namespace Request

def number : Request A → ℕ
  | QUERY r _ _ => r
  | UPDATE r _ _ _ => r
  | WAIT r _ _ => r

def path : Request A → List (Lua A)
  | QUERY _ key rest => key :: rest
  | UPDATE _ key rest _ => key :: rest
  | WAIT _ key rest => key :: rest

end Request

namespace Center

variable (s : Center A)

/-- `skynet.ret` of a request that is not a `WAIT`. -/
def ret (r : ℕ) (reply : Reply A) : Center A :=
  { s with results := s.results ++ [(r, reply)] }

/-- A reply to a `WAIT`. -/
def response (r : ℕ) (reply : Reply A) : Center A :=
  { s with answers := s.answers ++ [(r, reply)] }

/-- `command.UPDATE` after `update`. -/
def UPDATE
    (path : List (Lua A)) (value : Option (Lua A)) (ret : Data A) : Center A :=
  match truthy ret, value with
  | Bool.false, some v =>
    let w := wakeup s.wait_queue (path ++ [v])
    { s with
      wait_queue := w.db
      answers := s.answers ++ w.failed.map (fun r => (r, .refused)) ++
        (w.queue.getD []).map fun r => (r, .value v) }
  | _, _ => s

/-- What `command.UPDATE` returns. -/
def updated (value : Option (Lua A)) (ret : Data A) : Reply A :=
  if truthy ret ∨ value = none then .of ret else .nil

/-- The dispatch function at a request. -/
def dispatch : Request A → Center A
  | .QUERY r key rest =>
    match QUERY s.database key rest with
    | none => s.ret r .error
    | some d => s.ret r (.of d)
  | .UPDATE r key rest value =>
    match update s.database key rest value with
    | none => s.ret r .error
    | some (db, ret) =>
      ({ s with database := db }.UPDATE (key :: rest) value ret).ret r
        (updated value ret)
  | .WAIT r key rest =>
    match QUERY s.database key rest with
    | none => s.response r .error
    | some d =>
      if truthy d then s.response r (.of d)
      else
        match waitfor s.wait_queue key rest r with
        | none => s.response r .error
        | some db => { s with wait_queue := db }

end Center

/-- No step of the run faults. -/
inductive Fault where

/-- Every request has a number of its own. -/
def step (s : Center A) (l : Request A) : Outcome Fault (Center A) :=
  if l.number ∈ s.requests then .blocked
  else
    .next { s.dispatch l with
      requests := l.number :: s.requests
      paths := l.path :: s.paths }

end SkynetServer.Datacenter
