import SkynetServer.Seri.Pack
import SkynetServer.Support.Transition

/-!
# Global names, `cmaster.lua` and `cslave.lua`

Every slave has one connection to the master, on which the packages of both
directions arrive in order.  A label of a run is the start of a slave, a
request to a slave, or the reading of the next package at one end of a
connection.

A package is kept as the values that `skynet.unpack` reads, and is refused as
`pack_package` refuses it.  The notifications of the harbor service, the
connections between slaves and the loss of a connection are left out.
-/

namespace SkynetServer.Master

open Transition Seri

/-- A string of Lua. -/
abbrev Name := List UInt8

abbrev Address := BitVec 32

/-! ## Packages -/

/-- A package from a slave to the master. -/
inductive Request where
  | H (slave_id : ℕ) (slave_addr : Name)
  | R (name : Name) (address : Address)
  | Q (name : Name)
  deriving DecidableEq, Repr

/-- A package from the master to a slave. -/
inductive Notice where
  | W (n : ℕ)
  | C (slave_id : ℕ) (slave_addr : Name)
  | N (name : Name) (address : Address)
  deriving DecidableEq, Repr

def string (s : Name) : Value := .atom (.string s)

def integer (n : ℕ) : Value := .atom (.integer (BitVec.ofNat 64 n))

/-- The arguments of `pack_package`. -/
def Request.values : Request → List Value
  | .H slave_id slave_addr => [string [72], integer slave_id, string slave_addr]
  | .R name address => [string [82], string name, integer address.toNat]
  | .Q name => [string [81], string name]

def Notice.values : Notice → List Value
  | .W n => [string [87], integer n]
  | .C slave_id slave_addr => [string [67], integer slave_id, string slave_addr]
  | .N name address => [string [78], string name, integer address.toNat]

/-- `pack_package` does not raise `"too long"`. -/
def short (values : List Value) : Bool :=
  match luaseriPack values with
  | some message => message.length ≤ 255
  | none => false

/-! ## The state -/

/-- `cslave.lua`: `globalname`, `queryname`, and the responses given so far.
A response is known by the number of its request. -/
structure Slave where
  globalname : Name → Option Address
  queryname : Name → Option (List ℕ)
  responses : List (ℕ × Option Address)

/-- `cmaster.lua`, the slaves, and the packages on the connections: `up` from
a slave to the master, `down` from the master to a slave. -/
structure State where
  global_name : Name → Option Address
  slave_node : List ℕ
  started : List ℕ
  slave : ℕ → Slave
  up : ℕ → List Request
  down : ℕ → List Notice

def Slave.init : Slave where
  globalname _ := none
  queryname _ := none
  responses := []

def State.init : State where
  global_name _ := none
  slave_node := []
  started := []
  slave _ := .init
  up _ := []
  down _ := []

namespace State

variable (s : State)

def setSlave (p : ℕ) (v : Slave) : State :=
  { s with slave := Function.update s.slave p v }

/-- `socket.write` to the master. -/
def send (p : ℕ) (m : Request) : State :=
  { s with up := Function.update s.up p (s.up p ++ [m]) }

/-- `socket.write` to a slave. -/
def write (p : ℕ) (m : Notice) : State :=
  { s with down := Function.update s.down p (s.down p ++ [m]) }

/-- `socket.write` to every slave of `slave_node`. -/
def announce (m : Notice) : State :=
  { s with
    down := fun p =>
      if p ∈ s.slave_node then s.down p ++ [m] else s.down p }

end State

/-! ## `cslave.lua` -/

namespace Slave

variable (v : Slave)

def setGlobalname (name : Name) (address : Address) : Slave :=
  { v with globalname := Function.update v.globalname name (some address) }

/-- `response_name` -/
def response_name (name : Name) : Slave :=
  match v.queryname name with
  | some queue =>
    { v with
      queryname := Function.update v.queryname name none
      responses := v.responses ++ queue.map fun r => (r, v.globalname name) }
  | none => v

/-- `skynet.ret` -/
def ret (r : ℕ) (address : Option Address) : Slave :=
  { v with responses := v.responses ++ [(r, address)] }

def setQueryname (name : Name) (queue : List ℕ) : Slave :=
  { v with queryname := Function.update v.queryname name (some queue) }

end Slave

section Requests

variable (s : State) (p : ℕ)

/-- `harbor.REGISTER`; the second assertion is in `pack_package`. -/
def register (name : Name) (handle : Address) : State :=
  let v := s.slave p
  match v.globalname name with
  | some _ => s
  | none =>
    let s := s.setSlave p ((v.setGlobalname name handle).response_name name)
    if short (Request.R name handle).values then s.send p (.R name handle)
    else s

/-- `harbor.QUERYNAME`; `localname` is `skynet.localname`. -/
def queryname
    (localname : ℕ → Name → Option Address) (name : Name) (r : ℕ) : State :=
  let v := s.slave p
  if name.head? = some 46 then s.setSlave p (v.ret r (localname p name))
  else
    match v.globalname name with
    | some result => s.setSlave p (v.ret r (some result))
    | none =>
      match v.queryname name with
      | none =>
        if short (Request.Q name).values then
          (s.send p (.Q name)).setSlave p (v.setQueryname name [r])
        else s
      | some queue => s.setSlave p (v.setQueryname name (queue ++ [r]))

/-- The command `Q` of the harbor service, in `monitor_harbor`. -/
def monitor_harbor (name : Name) : State :=
  match (s.slave p).globalname name with
  | some _ => s
  | none =>
    if short (Request.Q name).values then s.send p (.Q name) else s

/-- `monitor_master` at a package; the handshake reads the `W`. -/
def monitor_master (m : Notice) : State :=
  match m with
  | .N name address =>
    s.setSlave p (((s.slave p).setGlobalname name address).response_name name)
  | _ => s

/-! ## `cmaster.lua` -/

/-- `handshake` -/
def handshake (slave_id : ℕ) (slave_addr : Name) : State :=
  { (s.announce (.C slave_id slave_addr)).write p (.W s.slave_node.length) with
    slave_node := s.slave_node ++ [p] }

/-- `dispatch_slave`, at a package that is not a handshake. -/
def dispatch_slave (m : Request) : State :=
  match m with
  | .R name address =>
    let s := match s.global_name name with
      | some _ => s
      | none =>
        { s with
          global_name := Function.update s.global_name name (some address) }
    s.announce (.N name address)
  | .Q name =>
    match s.global_name name with
    | some address => s.write p (.N name address)
    | none => s
  | .H _ _ => s

end Requests

/-! ## Runs -/

inductive Label where
  | start (p : ℕ) (slave_addr : Name)
  | register (p : ℕ) (name : Name) (handle : Address)
  | queryname (p : ℕ) (name : Name) (r : ℕ)
  | harbor (p : ℕ) (name : Name)
  | master (p : ℕ)
  | slave (p : ℕ)
  deriving DecidableEq, Repr

/-- The first package of a connection is not a handshake. -/
inductive Fault where
  | handshake

/-- The master reads a package, in `monitor_slave` or in `handshake`. -/
def read_slave (s : State) (p : ℕ) (m : Request) : Outcome Fault State :=
  if p ∈ s.slave_node then .next (dispatch_slave s p m)
  else
    match m with
    | .H slave_id slave_addr => .next (handshake s p slave_id slave_addr)
    | _ => .fault .handshake

def step (localname : ℕ → Name → Option Address) (s : State) :
    Label → Outcome Fault State
  | .start p slave_addr =>
    if p = 0 ∨ p ∈ s.started ∨
        short (Request.H p slave_addr).values = false then
      .blocked
    else .next (({ s with started := s.started ++ [p] }).send p
      (.H p slave_addr))
  | .register p name handle =>
    if p ∈ s.started then .next (register s p name handle) else .blocked
  | .queryname p name r =>
    if p ∈ s.started then .next (queryname s p localname name r) else .blocked
  | .harbor p name =>
    if p ∈ s.started then .next (monitor_harbor s p name) else .blocked
  | .master p =>
    match s.up p with
    | [] => .blocked
    | m :: rest =>
      read_slave { s with up := Function.update s.up p rest } p m
  | .slave p =>
    match s.down p with
    | [] => .blocked
    | m :: rest =>
      .next (monitor_master
        { s with down := Function.update s.down p rest } p m)

end SkynetServer.Master
