import SkynetServer.SocketServer.Knowledge

/-!
# Datagrams

The nodes in the send lists of a UDP socket: each holds a whole datagram and
the address it was accepted for.  The exception is the buffer that a direct
write of `socket_server_send` leaves behind when its `sendto` fails: it becomes
a node of `SIZEOF_TCPBUFFER`, which has no room for an address.
-/

namespace SkynetServer.SocketServer

open Transition

variable {τ : Type*}

/-- A UDP socket. -/
def Protocol.datagram : Protocol → Bool
  | .udp | .udpv6 => true
  | _ => false

/-- The nodes of both send lists. -/
def Socket.nodes (k : Socket τ) : List (WriteBuffer τ) := k.high ++ k.low

theorem Socket.mem_nodes_of_mem_list
    {k : Socket τ} {low : Bool} {b : WriteBuffer τ} (h : b ∈ k.list low) :
    b ∈ k.nodes := by
  cases low
  · exact List.mem_append_left _ h
  · exact List.mem_append_right _ h

/-- No buffer of a direct write is stored for a socket that is not TCP: no
direct `sendto` of `socket_server_send` has fallen short. -/
def SparesDatagram : Condition τ := fun k _ ws t =>
  ∀ w c n, t = some w → ws w = .setDw c n → k.protocol = .tcp

/-! ## Steps -/

section Steps

variable {k k' : Socket τ}

theorem wstep_datagram
    {p p' : WPc τ} (h : WStep k p k' p') (hudp : k'.protocol.datagram = true) :
    k'.protocol = k.protocol := by
  cases h
  case reserve h =>
    cases h
    case setProtocol => cases hudp
    all_goals rfl
  all_goals rfl

theorem Socket.append_protocol
    (k : Socket τ) (low : Bool) (b : WriteBuffer τ) :
    (k.append low b).warn.protocol = k.protocol := by
  unfold Socket.warn Socket.append
  split <;> split <;> rfl

theorem Socket.mem_nodes_append
    {k : Socket τ} {low : Bool} {b b' : WriteBuffer τ}
    (h : b' ∈ (k.append low b).warn.nodes) : b' ∈ k.nodes ∨ b' = b := by
  have hnodes : (k.append low b).warn.nodes = (k.append low b).nodes := by
    unfold Socket.warn
    split <;> rfl
  rw [hnodes] at h
  unfold Socket.nodes Socket.append at *
  cases low
  · simp only [Bool.false_eq_true, if_false, List.mem_append,
      List.mem_singleton] at h ⊢
    rcases h with (h | h) | h
    · exact .inl (.inl h)
    · exact .inr h
    · exact .inl (.inr h)
  · simp only [if_true, List.mem_append, List.mem_singleton] at h ⊢
    rcases h with h | h | h
    · exact .inl (.inl h)
    · exact .inl (.inr h)
    · exact .inr h

theorem Socket.mem_nodes_setList
    {k : Socket τ} {low : Bool} {b b' : WriteBuffer τ}
    {rest : List (WriteBuffer τ)} {n : ℕ} (hlist : k.list low = b :: rest)
    (h : b' ∈ (k.setList low rest n).nodes) : b' ∈ k.nodes := by
  cases low
  · have hhigh : k.high = b :: rest := hlist
    rcases List.mem_append.mp h with h | h
    · refine List.mem_append_left _ ?_
      rw [hhigh]
      exact List.mem_cons_of_mem _ h
    · exact List.mem_append_right _ h
  · have hlow : k.low = b :: rest := hlist
    rcases List.mem_append.mp h with h | h
    · exact List.mem_append_left _ h
    · refine List.mem_append_right _ ?_
      rw [hlow]
      exact List.mem_cons_of_mem _ h

/-- A node of a UDP socket was there before the step, or is the datagram of the
command that the step handles. -/
def Queued (k : Socket τ) (p : SPc τ) (b : WriteBuffer τ) : Prop :=
  ∃ c : Call τ, p = .cmd (.send c.id c.package) ∧
    b = ⟨c.package, 0, some (c.package.kind.address.getD k.peer)⟩

/-- What a step of the socket thread does to a UDP socket. -/
inductive DatagramStep (k k' : Socket τ) (p : SPc τ) : Prop
  | opened (hlists : k'.nodes = []) (hdw : k'.dw = none)
  | same (hprotocol : k'.protocol = k.protocol)
      (hnodes : ∀ b ∈ k'.nodes, b ∈ k.nodes ∨ Queued k p b)
      (hdw : k.dw = none → k'.dw = none)

theorem ne_tcp_of_datagram
    {k : Socket τ} (h : k.protocol.datagram = true) : k.protocol ≠ .tcp := by
  intro htcp
  rw [htcp] at h
  cases h

theorem sstep_datagram
    {p p' : SPc τ} (h : SStep k p k' p') (hudp : k'.protocol.datagram = true)
    (hdw : k.protocol.datagram = true → k.dw = none) :
    DatagramStep k k' p := by
  have hqueue (c : Call τ) (low : Bool) (address : Option Address)
      (hp : p = .cmd (.send c.id c.package))
      (hudp : (k.append low ⟨c.package, 0, address⟩).warn.protocol.datagram =
        true)
      (haddress : k.protocol ≠ .tcp →
        address = some (c.package.kind.address.getD k.peer)) :
      DatagramStep k (k.append low ⟨c.package, 0, address⟩).warn p := by
    rw [Socket.append_protocol] at hudp
    refine .same (Socket.append_protocol ..) (fun b hb => ?_) fun hnone => ?_
    · rcases Socket.mem_nodes_append hb with hb | rfl
      · exact .inl hb
      · refine .inr ⟨c, hp, ?_⟩
        rw [haddress (ne_tcp_of_datagram hudp)]
    · unfold Socket.warn Socket.append
      split <;> split <;> exact hnone
  have htcp {P : Prop} (hp : k.protocol = .tcp)
      (hsame : k'.protocol = k.protocol) : P :=
    absurd (hsame.trans hp) (ne_tcp_of_datagram hudp)
  cases h
  case queueFirst c low address r _ _ _ _ haddress =>
    exact hqueue c low address rfl hudp haddress
  case queue c address r _ _ _ haddress =>
    exact hqueue c _ address rfl hudp haddress
  case newFd id n _ hempty =>
    obtain ⟨hhigh, hlow⟩ := Socket.drained_of_sendBufferEmpty hempty
    refine .opened ?_ rfl
    unfold Socket.nodes Socket.newFd
    simp only
    rw [hhigh, hlow]
    rfl
  case takeDw f =>
    have hprotocol : k.takeDw.protocol = k.protocol := by
      unfold Socket.takeDw
      split <;> rfl
    have hsame : k.takeDw = k := by
      unfold Socket.takeDw
      rw [hdw (hprotocol ▸ hudp)]
    rw [hsame]
    exact .same rfl (fun b hb => .inl hb) id
  case sendAll f low b rest hp _ | sendPart f low b rest n hp _ _ =>
    refine htcp hp ?_
    cases low <;> rfl
  case udpSend f low b rest _ hlist | udpDrop f low b rest _ hlist =>
    refine .same ?_ (fun b' hb => .inl (Socket.mem_nodes_setList hlist hb)) ?_
    · cases low <;> rfl
    · cases low <;> exact id
  case raise f b rest hhigh hlow =>
    refine .same rfl (fun b' hb => .inl ?_) id
    unfold Socket.nodes at hb ⊢
    rw [hhigh, hlow]
    exact hb
  case freeHigh =>
    exact .same rfl (fun b hb => .inl (List.mem_append_right _ hb)) id
  case freeLow =>
    refine .same rfl (fun b hb => .inl ?_) id
    rcases List.mem_append.mp hb with hb | hb
    · exact List.mem_append_left _ hb
    · cases hb
  case del i held f =>
    unfold stepDel
    split <;> exact .same rfl (fun b hb => .inl hb) id
  case freeDw => exact .same rfl (fun b hb => .inl hb) fun _ => rfl
  case reserve h =>
    cases h
    case setProtocol => cases hudp
    all_goals exact .same rfl (fun b hb => .inl hb) id
  all_goals exact .same rfl (fun b hb => .inl hb) id

end Steps

/-! ## Every run -/

section Runs

variable [DecidableEq τ]

namespace State

/-- The datagram of a node was queued by the command that the socket thread
handled in an earlier state of the run, for its own address or for the peer
that the socket had then. -/
def Origin (s : State τ) (i : ℕ) (b : WriteBuffer τ) : Prop :=
  ∃ (s₁ : State τ) (id : Id),
    Reaches step (Meets SparesDatagram) create s₁ ∧
    Reaches step (Meets SparesDatagram) s₁ s ∧
    s₁.server = .cmd (.send id b.package) ∧ hashId id = i ∧ b.offset = 0 ∧
    b.address = some (b.package.kind.address.getD (s₁.slot i).peer)

theorem datagrams_of_reaches
    {s : State τ} (h : Reaches step (Meets SparesDatagram) create s) :
    ∀ i, (s.slot i).protocol.datagram = true →
      (s.slot i).dw = none ∧ ∀ b ∈ (s.slot i).nodes, s.Origin i b := by
  induction h with
  | refl =>
      intro i hudp
      cases hudp
  | @tail s s' l hr hok hs ih =>
      have hlater {i : ℕ} {b : WriteBuffer τ} (h : s.Origin i b) :
          s'.Origin i b := by
        obtain ⟨s₁, id, h₁, h₂, hrest⟩ := h
        exact ⟨s₁, id, h₁, h₂.tail l hok hs, hrest⟩
      intro i hudp
      rcases (move_of_step hs).slot_cases i with hsame | ⟨w, a, p, rfl, hi, hw⟩ |
        ⟨a, p, rfl, hi, hserver⟩
      · rw [hsame] at hudp ⊢
        exact ⟨(ih i hudp).1, fun b hb => hlater ((ih i hudp).2 b hb)⟩
      · have hold := wstep_datagram hw hudp
        obtain ⟨hdw, horigin⟩ := ih i (hold ▸ hudp)
        refine ⟨?_, fun b hb => hlater (horigin b ?_)⟩
        · rcases wstep_dw hw with hk | ⟨c, n, hp, -⟩
          · rw [hk, hdw]
          · have htcp := hok i hi w c n rfl
              (by rw [workersAt, WPc.seen_of_slot hi, hp])
            exact absurd (hold.trans htcp) (ne_tcp_of_datagram hudp)
        · obtain ⟨hhigh, hlow⟩ := wstep_lists hw
          unfold Socket.nodes at hb ⊢
          rwa [hhigh, hlow] at hb
      · cases sstep_datagram hserver hudp fun hu => (ih i hu).1 with
        | opened hlists hdw =>
            refine ⟨hdw, fun b hb => ?_⟩
            rw [hlists] at hb
            cases hb
        | same hprotocol hnodes hdw =>
            have hold := ih i (hprotocol ▸ hudp)
            refine ⟨hdw hold.1, fun b hb => ?_⟩
            rcases hnodes b hb with hb | ⟨c, hp, hb⟩
            · exact hlater (hold.2 b hb)
            · refine ⟨s, c.id, hr, .tail _ .refl hok hs, ?_, ?_, ?_, ?_⟩
              · rw [hp, hb]
              · rw [hp] at hi
                exact Option.some.inj hi
              · rw [hb]
              · rw [hb]

/-- In every run in which no direct `sendto` of `socket_server_send` falls
short: every node in a send list of a UDP socket holds its whole datagram, and
the address that it was sent to or, if it was sent to none, the peer which the
socket had when the command was handled.  If that is an address of the socket's
own protocol, `send_list_udp` does not drop it as a mismatch. -/
theorem datagrams_addressed
    {s : State τ} (h : Reaches step (Meets SparesDatagram) create s) (i : ℕ)
    (hudp : (s.slot i).protocol.datagram = true) (low : Bool)
    {b : WriteBuffer τ} (hb : b ∈ (s.slot i).list low) :
    b.package.data.drop b.offset = b.package.data ∧
    ∃ a, b.address = some a ∧
      (∀ x, b.package.kind = .udp x → a = x) ∧
      ((∀ x, b.package.kind ≠ .udp x) →
        ∃ (s₁ : State τ) (id : Id),
          Reaches step (Meets SparesDatagram) create s₁ ∧
          Reaches step (Meets SparesDatagram) s₁ s ∧
          s₁.server = .cmd (.send id b.package) ∧ hashId id = i ∧
          (s₁.slot i).peer = a) ∧
      (a.type = (s.slot i).protocol.code →
        ∀ act, mismatched (s.slot i) b act = false) := by
  obtain ⟨-, horigin⟩ := datagrams_of_reaches h i hudp
  obtain ⟨s₁, id, h₁, h₂, hserver, hid, hoffset, haddress⟩ :=
    horigin b (Socket.mem_nodes_of_mem_list hb)
  refine ⟨?_, _, haddress, ?_, ?_, ?_⟩
  · rw [hoffset]
    rfl
  · intro x hx
    rw [hx]
    rfl
  · intro hkind
    refine ⟨s₁, id, h₁, h₂, hserver, hid, ?_⟩
    cases hk : b.package.kind with
    | udp x => exact absurd hk (hkind x)
    | _ => rfl
  · intro htype act
    have hmatch : (s.slot i).udpSocketAddress
        (b.package.kind.address.getD (s₁.slot i).peer) = true := by
      unfold Socket.udpSocketAddress
      rw [htype]
      cases hp : (s.slot i).protocol <;> rw [hp] at hudp <;>
        first | rfl | cases hudp
    unfold mismatched
    rw [haddress]
    simp only [hmatch, Bool.not_true]

end State

end Runs

/-! ## Runs with one UDP socket -/

namespace State

/-- The worker calls `socket_server_udp`, which returns the id `1`. -/
def callUdp : List (Option Unit × Act) :=
  (some (), .call (.open (.udp false))) :: List.replicate 7 (some (), .go) ++
    List.replicate 5 (none, .go)

/-- The address of a UDP socket. -/
def udpPeer : Address := ⟨Protocol.udp.code, [9]⟩

def sparesDatagramTest (s : State Unit) (l : Option Unit × Act) : Bool :=
  match l.1, s.worker () with
  | some _, .setDw _ _ => false
  | _, _ => true

theorem meets_of_sparesDatagramTest
    (s : State Unit) (l : Option Unit × Act)
    (h : s.sparesDatagramTest l = true) : s.Meets SparesDatagram l := by
  obtain ⟨t, a⟩ := l
  cases t with
  | none =>
      intro i _ w c n hw
      cases hw
  | some w =>
      intro i hi v c n hv hp
      cases hv
      rw [workersAt, WPc.seen_of_slot hi] at hp
      simp only [sparesDatagramTest] at h
      rw [show s.worker () = .setDw c n from hp] at h
      cases h

/-- The theorem above for a datagram that is queued after its `sendto` has
failed. -/
theorem datagrams_addressed_after_queue :
    ∃ (s : State Unit) (b : WriteBuffer Unit),
      (s.slot 1).protocol = .udp ∧ (s.slot 1).high = [b] ∧
      b.package.data.drop b.offset = [7] ∧ b.address = some udpPeer := by
  have hrun : ∃ s : State Unit,
      execWhile step sparesDatagramTest create
        (callUdp ++
          (some (), .call (.send 1 (.udp udpPeer) [7])) ::
            List.replicate 17 (some (), .go) ++
          [(some (), .again), (some (), .go), (some (), .go), (none, .go),
            (none, .again)]) = .next s ∧
      (s.slot 1).protocol = .udp ∧
      (s.slot 1).high = [⟨⟨(), .udp udpPeer, [7]⟩, 0, some udpPeer⟩] :=
    ⟨_, rfl, rfl, rfl⟩
  obtain ⟨s, hs, hprotocol, hhigh⟩ := hrun
  obtain ⟨hdata, a, haddress, hexplicit, -⟩ := datagrams_addressed
    (reaches_of_execWhile meets_of_sparesDatagramTest hs) 1
    (by rw [hprotocol]; rfl) false
    (show _ ∈ (s.slot 1).high by rw [hhigh]; exact List.mem_singleton.mpr rfl)
  exact ⟨s, _, hprotocol, hhigh, hdata,
    haddress.trans (congrArg some (hexplicit udpPeer rfl))⟩

/-- The direct `sendto` of `socket_server_send` fails.  Its datagram comes to
the send list without an address: `send_list_udp` reads one behind the end of
the node, and drops the datagram when that is no address of the socket's
protocol, although the peer of the socket is one. -/
theorem datagram_loses_address :
    ∃ s s' : State Unit,
      exec step create
        (callUdp ++
          (some (), .call (.udpConnect 1)) :: List.replicate 7 (some (), .go) ++
          [(some (), .resolved false [9]), (some (), .go), (none, .go),
            (none, .go)] ++
          (some (), .call (.send 1 .send [7])) ::
            List.replicate 17 (some (), .go) ++
          [(some (), .again), (some (), .go), (some (), .go), (some (), .go),
            (none, .go),
            (none, .ready [⟨some 1, 0, false, true, false, false⟩]),
            (none, .go), (none, .go), (none, .go), (none, .go)]) = .next s ∧
      s.step (none, .mismatch) = .next s' ∧
      (s.slot 1).protocol = .udp ∧ (s.slot 1).peer = udpPeer ∧
      (s.slot 1).high = [⟨⟨(), .send, [7]⟩, 0, none⟩] ∧
      (s'.slot 1).high = [] ∧ (s'.slot 1).wire = [] := by
  exact ⟨_, _, rfl, rfl, rfl, rfl, rfl, rfl, rfl⟩

end State

end SkynetServer.SocketServer
