import SkynetServer.Support.Transition
import SkynetServer.Cluster.Packing

/-!
# Requests from a sender to its agent, `clusteragent.lua`

The sender packs its requests one after the other and sends the parts of long
ones later, behind other packages.  The agent keeps the parts under the
session of the request until the last one arrives and dispatches the request
then.  What the agent does with a request, and the tag of a trace, are left
out.
-/

namespace SkynetServer.Cluster

open Transition

/-! ## The agent -/

/-- An entry of `large_request`. -/
structure LargeRequest where
  addr : Option Address
  isPush : Bool
  items : List Item
  deriving DecidableEq, Repr

/-- A request that `dispatch_request` has read. -/
structure Dispatched where
  addr : Option Address
  session : ℕ
  msg : List UInt8
  isPush : Bool
  deriving DecidableEq, Repr

/-- `large_request`, the requests dispatched, and the sessions answered with
`Invalid large req`. -/
structure Agent where
  largeRequest : ℕ → Option LargeRequest
  dispatched : List Dispatched
  invalid : List ℕ

namespace Agent

/-- `dispatch_request` until it knows the request. -/
def dispatchRequest (a : Agent) : Unpacked → Agent
  | .trace _ => a
  | .request addr session msg sz padding isPush =>
    if padding then
      let req := (a.largeRequest session).getD ⟨addr, isPush, []⟩
      { a with largeRequest := Function.update a.largeRequest session
                (some { req with items := append req.items msg sz }) }
    else
      match a.largeRequest session with
      | some req =>
        let a := { a with
          largeRequest := Function.update a.largeRequest session none }
        match concat (append req.items msg sz) with
        | some msg =>
          { a with dispatched :=
              a.dispatched ++ [⟨req.addr, session, msg, req.isPush⟩] }
        | none => { a with invalid := a.invalid ++ [session] }
      | none =>
        match msg with
        | some msg =>
          { a with dispatched :=
              a.dispatched ++ [⟨addr, session, msg, isPush⟩] }
        | none => { a with invalid := a.invalid ++ [session] }

/-- The gate forwards a package without its size. -/
def receive (a : Agent) (package : List UInt8) : Except Failure Agent :=
  (unpackrequest (package.drop 2)).map a.dispatchRequest

end Agent

/-! ## The sender -/

/-- A call of `packrequest` or `packpush`. -/
structure Request where
  addr : Address
  session : ℕ
  msg : List UInt8
  isPush : Bool
  deriving DecidableEq, Repr

/-- `packrequest` of the request. -/
def Request.pack (r : Request) : Except Failure Packed :=
  packrequest r.addr r.session r.msg r.isPush

/-- The requests whose parts are being sent, with the parts that are left, the
agent at the other end of the link, and the requests that were sent whole. -/
structure State where
  pending : ℕ → Option (Request × List (List UInt8))
  agent : Agent
  sent : List Request

def State.init : State where
  pending := fun _ => none
  agent := ⟨fun _ => none, [], []⟩
  sent := []

/-- A request is packed and its first package sent, or the next part of the
request with the session. -/
inductive Label where
  | request (r : Request)
  | part (session : ℕ)

/-- One step of an interleaving; a fault is an error of the agent. -/
def step (s : State) : Label → Outcome Failure State
  | .request r =>
    match r.pack with
    | .error _ => .blocked
    | .ok packed =>
      match s.agent.receive packed.request with
      | .error failure => .fault failure
      | .ok agent =>
        if packed.parts = [] then
          .next { s with agent := agent, sent := s.sent ++ [r] }
        else
          .next { s with
            agent := agent
            pending := Function.update s.pending r.session
              (some (r, packed.parts)) }
  | .part session =>
    match s.pending session with
    | none => .blocked
    | some (_, []) => .blocked
    | some (r, part :: parts) =>
      match s.agent.receive part with
      | .error failure => .fault failure
      | .ok agent =>
        if parts = [] then
          .next
            { agent := agent
              sent := s.sent ++ [r]
              pending := Function.update s.pending session none }
        else
          .next { s with
            agent := agent
            pending := Function.update s.pending session (some (r, parts)) }

/-- The package of the request carries its session. -/
def Request.HasSession (r : Request) : Prop :=
  r.isPush = false ∨ multiPart ≤ r.msg.length

/-- The request has an `int` session of its own and a payload of less than two
gigabytes. -/
def fresh (s : State) : Label → Prop
  | .request r =>
    r.session < 2 ^ 31 ∧ r.msg.length < 2 ^ 31 ∧
      (r.HasSession → s.pending r.session = none)
  | .part _ => True

/-! ## Packing a request -/

/-- The address is a handle or a name of 1 to 255 bytes. -/
def Address.Valid : Address → Prop
  | .handle _ => True
  | .name s => 1 ≤ s.length ∧ s.length ≤ 255

/-- What the first package of the request is unpacked to. -/
def Request.unpacked (r : Request) : Unpacked :=
  if r.msg.length < multiPart then
    .request (some r.addr) (if r.isPush then 0 else r.session) (some r.msg)
      r.msg.length false r.isPush
  else
    .request (some r.addr) r.session none r.msg.length true r.isPush

/-- The request is packed: the packages are framed, the agent can read the
first one, and the session of the next request is valid again. -/
structure Request.PackedAs (r : Request) (packed : Packed) : Prop where
  pos : 1 ≤ r.session
  framed : Framed packed.request
  unpacked : unpackrequest (packed.request.drop 2) = .ok r.unpacked
  next_pos : 1 ≤ packed.session
  next_le : packed.session ≤ 2 ^ 31 - 1
  parts : packed.parts =
    if r.msg.length < multiPart then [] else packreqMulti r.session r.msg

section Pack

variable {r : Request}

/-- The session in a package of one is zero if and only if it is a push. -/
theorem decide_session_eq_zero
    (hpos : 1 ≤ r.session) :
    decide ((if r.isPush then 0 else r.session) = 0) = r.isPush := by
  cases r.isPush with
  | true => rfl
  | false => exact decide_eq_false (by
      rw [if_neg (by decide)]
      omega)

theorem packreqNumber_spec
    {addr : BitVec 32} (haddr : r.addr = .handle addr)
    (hpos : 1 ≤ r.session) (hsession : r.session < 2 ^ 31)
    (hlen : r.msg.length < 2 ^ 31) {request : List UInt8} {multipak : ℕ}
    (hpack : packreqNumber addr r.session r.msg r.isPush =
      (request, multipak)) :
    Framed request ∧ unpackrequest (request.drop 2) = .ok r.unpacked ∧
      (multipak = 0 ↔ r.msg.length < multiPart) := by
  rw [packreqNumber] at hpack
  by_cases hshort : r.msg.length < multiPart
  · rw [if_pos hshort] at hpack
    cases hpack
    have hlt : (if r.isPush then 0 else r.session) < 2 ^ 32 := by
      split
      · omega
      · omega
    refine ⟨?_, ?_, iff_of_true rfl hshort⟩
    · rw [List.append_assoc, List.append_assoc, List.append_assoc]
      apply framed_fillHeader
      · simp only [List.length_append, length_fillUint32,
          List.length_singleton]
        omega
      · unfold multiPart at hshort
        omega
    · have hread := unpackreqNumber_eq addr hlt r.msg
      rw [decide_session_eq_zero hpos] at hread
      rw [Request.unpacked, if_pos hshort, haddr]
      exact hread
  · rw [if_neg hshort] at hpack
    cases hpack
    refine ⟨?_, ?_, iff_of_false (Nat.succ_ne_zero _) hshort⟩
    · rw [List.append_assoc, List.append_assoc, List.append_assoc]
      apply framed_fillHeader
      · simp only [List.length_append, length_fillUint32,
          List.length_singleton]
      · omega
    · rw [Request.unpacked, if_neg hshort, haddr]
      exact unpackmreqNumber_eq addr (by omega) (by omega) r.isPush

theorem packreqString_spec
    {name : List UInt8} (haddr : r.addr = .name name)
    (hpos : 1 ≤ r.session) (hsession : r.session < 2 ^ 31)
    (hlen : r.msg.length < 2 ^ 31) {request : List UInt8} {multipak : ℕ}
    (hpack : packreqString name r.session r.msg r.isPush =
      .ok (request, multipak)) :
    Framed request ∧ unpackrequest (request.drop 2) = .ok r.unpacked ∧
      (multipak = 0 ↔ r.msg.length < multiPart) := by
  rw [packreqString] at hpack
  by_cases hname : name.length < 1 ∨ name.length > 255
  · rw [if_pos hname] at hpack
    cases hpack
  have hle : name.length ≤ 255 := by omega
  rw [if_neg hname] at hpack
  by_cases hshort : r.msg.length < multiPart
  · rw [if_pos hshort] at hpack
    cases hpack
    have hlt : (if r.isPush then 0 else r.session) < 2 ^ 32 := by
      split
      · omega
      · omega
    refine ⟨?_, ?_, iff_of_true rfl hshort⟩
    · rw [List.append_assoc, List.append_assoc, List.append_assoc]
      apply framed_fillHeader
      · simp only [List.length_append, length_fillUint32, List.length_cons,
          List.length_nil]
        omega
      · unfold multiPart at hshort
        omega
    · have hread := unpackreqString_eq hle hlt r.msg
      rw [decide_session_eq_zero hpos] at hread
      rw [Request.unpacked, if_pos hshort, haddr]
      exact hread
  · rw [if_neg hshort] at hpack
    cases hpack
    refine ⟨?_, ?_, iff_of_false (Nat.succ_ne_zero _) hshort⟩
    · rw [List.append_assoc, List.append_assoc, List.append_assoc]
      apply framed_fillHeader
      · simp only [List.length_append, length_fillUint32, List.length_cons,
          List.length_nil]
        omega
      · omega
    · rw [Request.unpacked, if_neg hshort, haddr]
      exact unpackmreqString_eq hle (by omega) (by omega) r.isPush

/-- A valid request is packed. -/
theorem pack_valid
    (hpos : 1 ≤ r.session) (haddr : r.addr.Valid) :
    ∃ packed, r.pack = .ok packed := by
  have hsession : ¬ (r.session : ℤ) ≤ 0 := by omega
  rw [Request.pack, packrequest, if_neg hsession]
  cases hr : r.addr with
  | handle handle => exact ⟨_, rfl⟩
  | name name =>
      rw [hr] at haddr
      have hname : ¬ (name.length < 1 ∨ name.length > 255) := by
        rintro (h | h)
        · exact absurd haddr.1 (by omega)
        · exact absurd haddr.2 (by omega)
      have hname' : ∃ p,
          packreqString name r.session r.msg r.isPush = .ok p := by
        rw [packreqString, if_neg hname]
        split
        · exact ⟨_, rfl⟩
        · exact ⟨_, rfl⟩
      obtain ⟨p, hp⟩ := hname'
      simp only [Int.toNat_natCast, hp]
      exact ⟨_, rfl⟩

theorem next_session_bounds (session : ℕ) :
    1 ≤ (if session + 1 > 2 ^ 31 - 1 then 1 else session + 1) ∧
      (if session + 1 > 2 ^ 31 - 1 then 1 else session + 1) ≤
        2 ^ 31 - 1 := by
  split
  · omega
  · omega

theorem pack_spec
    {packed : Packed} (hpack : r.pack = .ok packed)
    (hsession : r.session < 2 ^ 31) (hlen : r.msg.length < 2 ^ 31) :
    r.PackedAs packed := by
  rw [Request.pack, packrequest] at hpack
  by_cases hneg : (r.session : ℤ) ≤ 0
  · rw [if_pos hneg] at hpack
    cases hpack
  rw [if_neg hneg, Int.toNat_natCast] at hpack
  have hpos : 1 ≤ r.session := by omega
  have hnext := next_session_bounds r.session
  have hparts {multipak : ℕ}
      (h : multipak = 0 ↔ r.msg.length < multiPart) :
      (if multipak ≠ 0 then packreqMulti r.session r.msg else []) =
        if r.msg.length < multiPart then []
        else packreqMulti r.session r.msg := by
    by_cases hshort : r.msg.length < multiPart
    · rw [if_pos hshort, if_neg (not_not.mpr (h.mpr hshort))]
    · rw [if_neg hshort, if_pos (mt h.mp hshort)]
  cases haddr : r.addr with
  | handle addr =>
      rw [haddr] at hpack
      obtain ⟨request, multipak, hp⟩ : ∃ request multipak,
          packreqNumber addr r.session r.msg r.isPush =
            (request, multipak) := ⟨_, _, rfl⟩
      have hspec := packreqNumber_spec haddr hpos hsession hlen hp
      simp only [hp, Except.map] at hpack
      cases hpack
      exact ⟨hpos, hspec.1, hspec.2.1, hnext.1, hnext.2, hparts hspec.2.2⟩
  | name name =>
      rw [haddr] at hpack
      cases hp : packreqString name r.session r.msg r.isPush with
      | error failure =>
          simp only [hp, Except.map] at hpack
          cases hpack
      | ok p =>
          obtain ⟨request, multipak⟩ := p
          have hspec := packreqString_spec haddr hpos hsession hlen hp
          simp only [hp, Except.map] at hpack
          cases hpack
          exact ⟨hpos, hspec.1, hspec.2.1, hnext.1, hnext.2,
            hparts hspec.2.2⟩

end Pack

end SkynetServer.Cluster
