import SkynetServer.Gate.Databuffer
import SkynetServer.Support.Transition

/-!
# A connection of `service_gate.c`

Data of a client is pushed to the buffer of its connection, and each frame
that is complete goes to `_forward`, which reads it for the broker, the agent
of the connection or the watchdog.  The state also keeps the bytes that were
received, and for each call of `_forward` its size and the bytes in the buffer.

A connection is modelled from its `ACCEPT` on.  The commands of other services
may set the broker of the gate and the agent of the connection at any time.
-/

namespace SkynetServer.Gate

open Transition

abbrev Handle := BitVec 32

def ptypeText : ℕ := 0

def ptypeTagDontcopy : ℕ := 0x10000

structure Gate where
  watchdog : Handle
  broker : Handle
  client_tag : ℕ
  header_size : HeaderStyle

structure Connection where
  /-- id in the socket server -/
  id : ℤ
  agent : Handle
  client : Handle
  buffer : Databuffer

/-- The arguments of `skynet_send`. -/
structure Message where
  source : Handle
  destination : Handle
  type : ℕ
  session : ℤ
  data : List UInt8

/-- A call of `_forward`. -/
structure Call where
  size : ℕ
  unread : List UInt8

structure State where
  gate : Gate
  connection : Connection
  calls : List Call
  sent : List Message
  /-- `skynet_socket_close` was called -/
  closed : Bool
  received : List UInt8

namespace State

variable (s : State)

/-- A connection after `SKYNET_SOCKET_TYPE_ACCEPT`. -/
def init (g : Gate) (id : ℤ) : State where
  gate := g
  connection := { id := id, agent := 0, client := 0, buffer := .clear }
  calls := []
  sent := []
  closed := false
  received := []

def setBuffer (buffer : Databuffer) : State :=
  { s with connection := { s.connection with buffer := buffer } }

/-- Some service is to receive the data of the client. -/
def HasReceiver : Prop :=
  0 < s.connection.id ∧
    (s.gate.broker ≠ 0 ∨ s.connection.agent ≠ 0 ∨ s.gate.watchdog ≠ 0)

instance : Decidable s.HasReceiver :=
  inferInstanceAs (Decidable (_ ∧ _))

end State

/-- The line in front of the data for the watchdog. -/
def dataLine (id : ℤ) : List UInt8 := (toString id ++ " data ").toUTF8.toList

/-- Read a frame from the buffer and send it. -/
def sendFrame
    (s : State) (size : ℕ) (message : List UInt8 → Message) : Option State :=
  match s.connection.buffer.read size with
  | none => none
  | some (temp, buffer) =>
    some { s.setBuffer buffer with sent := s.sent ++ [message temp] }

/-- `_forward` -/
def forward (s : State) (size : ℕ) : Option State :=
  let fd := s.connection.id
  if fd ≤ 0 then some s
  else if s.gate.broker ≠ 0 then
    sendFrame s size fun temp =>
      { source := 0, destination := s.gate.broker
        type := s.gate.client_tag ||| ptypeTagDontcopy
        session := fd, data := temp }
  else if s.connection.agent ≠ 0 then
    sendFrame s size fun temp =>
      { source := s.connection.client, destination := s.connection.agent
        type := s.gate.client_tag ||| ptypeTagDontcopy
        session := fd, data := temp }
  else if s.gate.watchdog ≠ 0 then
    sendFrame s size fun temp =>
      { source := 0, destination := s.gate.watchdog
        type := ptypeText ||| ptypeTagDontcopy
        session := fd, data := dataLine fd ++ temp }
  else some s

/-- The call that `_forward` gets. -/
def State.called (s : State) (size : ℕ) : State :=
  { s with calls := s.calls ++ [⟨size, s.connection.buffer.contents⟩] }

/-- The loop of `dispatch_message`. -/
def dispatchLoop : ℕ → State → Option State
  | 0, _ => none
  | fuel + 1, s =>
    match s.connection.buffer.readheader s.gate.header_size with
    | none => none
    | some (size, buffer) =>
      let s := s.setBuffer buffer
      if size < 0 then some s
      else if size > 0 then
        if size ≥ 0x1000000 then
          some { s.setBuffer .clear with closed := true }
        else
          match forward (s.called size.toNat) size.toNat with
          | none => none
          | some s => dispatchLoop fuel (s.setBuffer s.connection.buffer.reset)
      else dispatchLoop fuel s

/-- `dispatch_message`.  Every round of the loop reads a header, except for
the first one. -/
def dispatch_message (s : State) (data : List UInt8) : Option State :=
  let s := s.setBuffer (s.connection.buffer.push data)
  dispatchLoop (s.connection.buffer.size + s.gate.header_size.size + 1) s

inductive Event where
  /-- `SKYNET_SOCKET_TYPE_DATA` -/
  | data (buffer : List UInt8)
  /-- the command `broker` -/
  | broker (handle : Handle)
  /-- the command `forward` -/
  | forward (agent client : Handle)

inductive GateFault where
  | databuffer

/-- One message of the gate. -/
def step (s : State) : Event → Outcome GateFault State
  | .data buffer =>
    if s.closed then .blocked
    else
      match dispatch_message { s with received := s.received ++ buffer }
          buffer with
      | none => .fault .databuffer
      | some s' => .next s'
  | .broker handle => .next { s with gate := { s.gate with broker := handle } }
  | .forward agent client =>
    .next { s with
      connection := { s.connection with agent := agent, client := client } }

/-! ## Forwarding -/

/-- The data of a message ends with a frame. -/
def Message.Carries (m : Message) (frame : List UInt8) : Prop :=
  frame <:+ m.data

section Forward

variable {s : State} {size : ℕ}

theorem sendFrame_spec
    {message : List UInt8 → Message} (hok : s.connection.buffer.Ok)
    (hpos : 0 < size) (hle : size ≤ s.connection.buffer.contents.length) :
    ∃ db, sendFrame s size message = some { s.setBuffer db with
        sent := s.sent ++ [message (s.connection.buffer.contents.take size)] } ∧
      db.Ok ∧ db.contents = s.connection.buffer.contents.drop size := by
  obtain ⟨db, hread, hdb, hcontents, -⟩ := hok.read hpos hle
  refine ⟨db, ?_, hdb, hcontents⟩
  rw [sendFrame, hread]

/-- With a receiver, `_forward` takes its size from the front of the buffer,
and sends these bytes in one message. -/
theorem forward_of_receiver
    (h : s.HasReceiver) (hok : s.connection.buffer.Ok) (hpos : 0 < size)
    (hle : size ≤ s.connection.buffer.contents.length) :
    ∃ db m, forward s size =
        some { s.setBuffer db with sent := s.sent ++ [m] } ∧
      db.Ok ∧ db.contents = s.connection.buffer.contents.drop size ∧
      m.Carries (s.connection.buffer.contents.take size) := by
  obtain ⟨hid, hreceiver⟩ := h
  rw [forward]
  dsimp only
  rw [if_neg (Int.not_le.mpr hid)]
  split_ifs with hbroker hagent hwatchdog
  · obtain ⟨db, hsend, hdb⟩ := sendFrame_spec hok hpos hle
    exact ⟨db, _, hsend, hdb.1, hdb.2, List.suffix_rfl⟩
  · obtain ⟨db, hsend, hdb⟩ := sendFrame_spec hok hpos hle
    exact ⟨db, _, hsend, hdb.1, hdb.2, List.suffix_rfl⟩
  · obtain ⟨db, hsend, hdb⟩ := sendFrame_spec hok hpos hle
    exact ⟨db, _, hsend, hdb.1, hdb.2, List.suffix_append _ _⟩
  · rcases hreceiver with h | h | h
    · exact absurd h hbroker
    · exact absurd h hagent
    · exact absurd h hwatchdog

/-- Without a receiver nothing is read. -/
theorem forward_of_no_receiver (h : ¬ s.HasReceiver) :
    forward s size = some s := by
  rw [forward]
  split_ifs with hid hbroker hagent hwatchdog
  · rfl
  · exact absurd ⟨Int.not_le.mp hid, .inl hbroker⟩ h
  · exact absurd ⟨Int.not_le.mp hid, .inr (.inl hagent)⟩ h
  · exact absurd ⟨Int.not_le.mp hid, .inr (.inr hwatchdog)⟩ h
  · rfl

end Forward

end SkynetServer.Gate
