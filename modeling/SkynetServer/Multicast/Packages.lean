import SkynetServer.Multicast.Daemon
import SkynetServer.Support.Transition

/-!
# Packages of `lua-multicast.c` on one node

A publication is packed into a `mc_package`, whose pointer is sent to every
service of the node that subscribes.  The package is bound with the number of
these services, and each of them closes it when it has handled the message.

A label of a run is a command of `multicastd.lua`, a step of a handler that
was suspended, the delivery of a message to a service, the return of its
`__dispatch`, or the end of a service, which `__dispatch` may also call.  What `dispatch` and `__subscribe` of `multicast.lua` hold is set by
the services as they like.
-/

namespace SkynetServer.Multicast

open Transition

/-! ## `lua-multicast.c` -/

/-- A `mc_package`: not yet published, bound with a count, its data freed, or
taken apart by `mc_remote`, when the data is sent on afterwards. -/
inductive Package where
  | absent
  | unbound
  | bound (count reference : ℕ)
  | freed (count : ℕ)
  | detached
  | handed
  deriving DecidableEq, Repr

/-- An error of `luaL_error` or `luaL_checkinteger`, or an access to a package
that was freed. -/
inductive PackageFault where
  | bind
  | close
  | count
  deriving DecidableEq, Repr

/-- `mc_bindrefer` -/
def Package.bind (p : Package) (ref : ℕ) : Except PackageFault Package :=
  match p with
  | .unbound => .ok (.bound ref ref)
  | _ => .error .bind

/-- `mc_closelocal` -/
def Package.close : Package → Except PackageFault Package
  | .bound count (ref + 2) => .ok (.bound count (ref + 1))
  | .bound count 1 => .ok (.freed count)
  | _ => .error .close

/-! ## Publications -/

/-- A message of a package to a service; the session is the channel. -/
structure Delivery where
  service : Handle
  c : ℕ
  deriving DecidableEq, Repr

/-- A package, the publication that has not reached the group of its channel,
the services it was sent to, its messages in flight, and those whose
`__dispatch` has not returned. -/
structure Item where
  package : Package
  pending : Option (ℕ × Handle)
  sent : List Handle
  inflight : List Delivery
  handling : List Delivery

def Item.absent : Item := ⟨.absent, none, [], [], []⟩

/-- The messages which may still be closed. -/
def Item.messages (it : Item) : List Delivery := it.inflight ++ it.handling

/-- `command.PUB`, and `unpack` of a message from another node.  The package
for another node is taken apart at once. -/
def Item.published (harbor_id : ℕ) (source : Handle) (c : ℕ) : Item :=
  ⟨if c % 256 = harbor_id then .unbound else .detached, some (c, source), [],
    [], []⟩

/-- `publish` from `local group` on. -/
def Item.publish (d : Daemon) (c : ℕ) (it : Item) : Except PackageFault Item :=
  match d.channel c with
  | some (k :: ks) =>
    match d.channel_n c with
    | none => .error .count
    | some n => do
      let package ← it.package.bind n
      return { it with
        package := package
        pending := none
        sent := k :: ks
        inflight := (k :: ks).map fun service => ⟨service, c⟩ }
  | _ => do
    let package ← it.package.bind 1
    let package ← package.close
    return { it with package := package, pending := none }

/-- `dispatch_subscribe` closes the package of a message. -/
def Item.deliver (it : Item) (m : Delivery) : Except PackageFault Item := do
  let package ← it.package.close
  return { it with package := package, inflight := it.inflight.erase m }

/-- A message is lost without `mc.close`. -/
def Item.lose (it : Item) (m : Delivery) : Item :=
  { it with inflight := it.inflight.erase m }

/-- `__dispatch` is called. -/
def Item.handle (it : Item) (m : Delivery) : Item :=
  { it with inflight := it.inflight.erase m, handling := m :: it.handling }

/-- `pcall` returns, whether or not `__dispatch` has raised an error. -/
def Item.finish (it : Item) (m : Delivery) : Except PackageFault Item := do
  let package ← it.package.close
  return { it with package := package, handling := it.handling.erase m }

/-- The coroutines of a service that exits are not resumed. -/
def Item.exit (it : Item) (service : Handle) : Item :=
  { it with handling := it.handling.filter fun m => m.service ≠ service }

/-! ## The node -/

/-- The daemon, the handlers of `SUB` that are suspended in the call of
`SUBR`, the packages made so far, the services that have exited, and in
`client` the `__subscribe` of the object in `dispatch[c]` of a service. -/
structure Local where
  daemon : Daemon
  calling : List (Handle × ℕ)
  items : ℕ → Item
  made : ℕ
  exited : List Handle
  client : Handle → ℕ → Option Bool

def Local.init (harbor_id : ℕ) : Local where
  daemon := .init harbor_id
  calling := []
  items _ := .absent
  made := 0
  exited := []
  client _ _ := none

inductive Command where
  | NEW
  | DEL (c : ℕ)
  | DELR (c : ℕ)
  | SUB (source : Handle) (c : ℕ)
  | response (source : Handle) (c : ℕ) (result : Option Bool)
  | USUB (source : Handle) (c : ℕ)
  | SUBR (source : Handle) (c : ℕ)
  | USUBR (source : Handle) (c : ℕ)
  | PUB (source : Handle) (c : ℕ)
  | remote (source : Handle) (c : ℕ)
  | publish (i : ℕ)
  | unknown (i : ℕ)
  | deliver (i : ℕ) (m : Delivery) (unpack : Bool)
  | finish (i : ℕ) (m : Delivery)
  | client (service : Handle) (c : ℕ) (subscribe : Option Bool)
  | exit (service : Handle)
  deriving DecidableEq, Repr

namespace Local

variable (harbor_id : ℕ) (s : Local)

def setItem (i : ℕ) (it : Item) : Local :=
  { s with items := Function.update s.items i it }

/-- A new package, which a handler publishes. -/
def add (it : Item) : Local :=
  { s.setItem s.made it with made := s.made + 1 }

/-- The changes of an item, if they raise no error. -/
def change (i : ℕ) : Except PackageFault Item → Outcome PackageFault Local
  | .ok it => .next (s.setItem i it)
  | .error f => .fault f

/-- `command.SUB` up to the call. -/
def SUB (source : Handle) (c : ℕ) : Local :=
  if c % 256 ≠ harbor_id ∧ s.daemon.channel c = none then
    { s with calling := s.calling ++ [(source, c)] }
  else { s with daemon := s.daemon.join source c }

/-- `dispatch_subscribe`.  The arguments of `pcall` are evaluated before it
protects the call. -/
def dispatch_subscribe
    (i : ℕ) (m : Delivery) (unpack : Bool) : Outcome PackageFault Local :=
  if m.service ∈ s.exited then .next (s.setItem i ((s.items i).lose m))
  else
    match s.client m.service m.c with
    | some true =>
      if unpack then .next (s.setItem i ((s.items i).handle m))
      else .next (s.setItem i ((s.items i).lose m))
    | _ => s.change i ((s.items i).deliver m)

end Local

/-- In `response` the call of `SUBR` fails with `none`.  In `unknown` the
handler of a publication ends with an error before it reaches the group: of
`get_address`, or of `next` in the loop over the nodes, when one of them was
added while it was suspended.  In `deliver` the flag says that `__unpack` raises
no error. -/
def localStep (harbor_id : ℕ) (s : Local) :
    Command → Outcome PackageFault Local
  | .NEW =>
    match s.daemon.NEW with
    | none => .blocked
    | some (d, _) => .next { s with daemon := d }
  | .DEL c =>
    if c % 256 = harbor_id then .next { s with daemon := (s.daemon.DEL c).1 }
    else .next s
  | .DELR c => .next { s with daemon := s.daemon.DELR c }
  | .SUB source c => .next (s.SUB harbor_id source c)
  | .response source c result =>
    if (source, c) ∈ s.calling then
      let s := { s with calling := s.calling.erase (source, c) }
      match result with
      | none => .next s
      | some missing =>
        .next { s with daemon := s.daemon.subscribed source c missing }
    else .blocked
  | .USUB source c =>
    match s.daemon.USUB harbor_id source c with
    | none => .next s
    | some (d, _) => .next { s with daemon := d }
  | .SUBR source c =>
    match s.daemon.SUBR harbor_id source c with
    | none => .next s
    | some (d, _) => .next { s with daemon := d }
  | .USUBR source c =>
    match s.daemon.USUBR harbor_id source c with
    | none => .next s
    | some d => .next { s with daemon := d }
  | .PUB source c =>
    if harbor source = harbor_id then
      .next (s.add (.published harbor_id source c))
    else .blocked
  | .remote source c =>
    .next (s.add ⟨.unbound, some (c, source), [], [], []⟩)
  | .publish i =>
    match (s.items i).pending with
    | none => .blocked
    | some (c, _) =>
      match (s.items i).package with
      | .detached =>
        .next (s.setItem i { s.items i with package := .handed, pending := none })
      | _ => s.change i ((s.items i).publish s.daemon c)
  | .unknown i =>
    match (s.items i).pending with
    | none => .blocked
    | some _ => .next (s.setItem i { s.items i with pending := none })
  | .deliver i m unpack =>
    if m ∈ (s.items i).inflight then s.dispatch_subscribe i m unpack
    else .blocked
  | .finish i m =>
    if m ∈ (s.items i).handling then s.change i ((s.items i).finish m)
    else .blocked
  | .client service c subscribe =>
    .next { s with
      client := Function.update s.client service
        (Function.update (s.client service) c subscribe) }
  | .exit service =>
    .next { s with
      exited := service :: s.exited
      items := fun i => (s.items i).exit service }

end SkynetServer.Multicast
