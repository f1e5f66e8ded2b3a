import SkynetServer.Support.Transition
import Mathlib.Data.Finset.Card

/-!
# The clients of the gate server, `snax/gateserver.lua`

The gate server counts its clients in `client_number` and refuses those beyond
`maxclient`.  It calls the functions of a handler, which may wait and may
raise an error.  While one of them is in progress the gate server goes on with
other events.

The socket server names each connection by an fd of its own: an fd is opened at
most once, and at most one `close` or `error` follows.
-/

namespace SkynetServer.Gateserver

open Transition

/-! ## The events -/

/-- Which of the functions that may be missing the handler has. -/
structure Handler where
  disconnect : Bool
  error : Bool
  warning : Bool
  deriving DecidableEq, Repr

/-- A call of a function of the handler. -/
inductive Call where
  | connect (fd : ℕ)
  | message (fd : ℕ)
  | disconnect (fd : ℕ)
  | error (fd : ℕ)
  | warning (fd : ℕ)
  deriving DecidableEq, Repr

/-- The fd that `close_fd` is called with when the call returns. -/
def Call.closing : Call → Option ℕ
  | .disconnect fd => some fd
  | .error fd => some fd
  | _ => none

/-- The variables of the gate server and the calls in progress.  `opened`,
`accepted` and `ended` are the fds whose `open` has arrived, those of them that
were not refused, and the fds whose `close` or `error` has arrived. -/
structure State where
  socket : Option ℕ
  maxclient : Option ℤ
  clientNumber : ℤ
  connection : ℕ → Option Bool
  calls : List Call
  opened : Finset ℕ
  accepted : Finset ℕ
  ended : Finset ℕ

/-- No event has arrived. -/
def start : State where
  socket := none
  maxclient := none
  clientNumber := 0
  connection := fun _ => none
  calls := []
  opened := ∅
  accepted := ∅
  ended := ∅

inductive Label where
  /-- `CMD.open`; `socketdriver.listen` may fail. -/
  | listen (maxclient : Option ℤ) (socket : Option ℕ)
  | open (fd : ℕ)
  /-- A package of `data`, or one that `dispatch_queue` pops. -/
  | dispatchMsg (fd : ℕ)
  | close (fd : ℕ)
  | error (fd : ℕ)
  | warning (fd : ℕ)
  | openclient (fd : ℕ)
  | closeclient (fd : ℕ)
  /-- A function of the handler returns. -/
  | ret (call : Call)
  /-- A function of the handler raises an error. -/
  | raise (call : Call)
  deriving DecidableEq, Repr

namespace State

variable (s : State)

/-- `close_fd` -/
def closeFd (fd : ℕ) : State :=
  match s.connection fd with
  | some _ =>
    { s with
      connection := Function.update s.connection fd none
      clientNumber := s.clientNumber - 1 }
  | none => s

def call (c : Call) : State := { s with calls := s.calls ++ [c] }

/-- `CMD.open` -/
def listen (maxclient : Option ℤ) (socket : Option ℕ) : State :=
  match s.socket with
  | some _ => s
  | none =>
    { s with
      maxclient := some (maxclient.getD 1024)
      socket := socket }

/-- `MSG.open`; a comparison with a missing `maxclient` raises an error. -/
def msgOpen (fd : ℕ) : State :=
  match s.maxclient with
  | none => s
  | some maxclient =>
    if s.clientNumber ≥ maxclient then s
    else
      call
        { s with
          connection := Function.update s.connection fd (some true)
          clientNumber := s.clientNumber + 1
          accepted := insert fd s.accepted }
        (.connect fd)

/-- `dispatch_msg` -/
def dispatchMsg (fd : ℕ) : State :=
  match s.connection fd with
  | some true => s.call (.message fd)
  | _ => s

/-- `MSG.close` -/
def msgClose (h : Handler) (fd : ℕ) : State :=
  if s.socket = some fd then { s with socket := none }
  else if h.disconnect then s.call (.disconnect fd)
  else s.closeFd fd

/-- `MSG.error` of a client -/
def msgError (h : Handler) (fd : ℕ) : State :=
  if h.error then s.call (.error fd)
  else s.closeFd fd

/-- `MSG.warning` -/
def msgWarning (h : Handler) (fd : ℕ) : State :=
  if h.warning then s.call (.warning fd)
  else s

/-- `gateserver.closeclient` -/
def closeclient (fd : ℕ) : State :=
  match s.connection fd with
  | some true =>
    { s with connection := Function.update s.connection fd (some false) }
  | _ => s

/-- What is left of a function of the gate server when the function of the
handler has returned. -/
def resume (c : Call) : State :=
  match c.closing with
  | some fd => s.closeFd fd
  | none => s

end State

/-- The step of the gate server. -/
def step (h : Handler) (s : State) : Label → Outcome Empty State
  | .listen maxclient socket =>
    if ∃ fd ∈ socket, fd ∈ s.opened ∨ fd ∈ s.ended then .blocked
    else .next (s.listen maxclient socket)
  | .open fd =>
    if fd ∈ s.opened ∨ fd ∈ s.ended ∨ s.socket = some fd then .blocked
    else .next (State.msgOpen { s with opened := insert fd s.opened } fd)
  | .dispatchMsg fd => .next (s.dispatchMsg fd)
  | .close fd =>
    if fd ∈ s.ended then .blocked
    else .next (State.msgClose { s with ended := insert fd s.ended } h fd)
  | .error fd =>
    if fd ∈ s.ended then .blocked
    else if s.socket = some fd then .next s
    else .next (State.msgError { s with ended := insert fd s.ended } h fd)
  | .warning fd => .next (s.msgWarning h fd)
  | .openclient _ => .next s
  | .closeclient fd => .next (s.closeclient fd)
  | .ret c =>
    if c ∈ s.calls then
      .next (State.resume { s with calls := s.calls.erase c } c)
    else .blocked
  | .raise c =>
    if c ∈ s.calls then .next { s with calls := s.calls.erase c }
    else .blocked

/-! ## The clients that are counted -/

namespace State

variable (s : State)

/-- The fds whose disconnect or error function is in progress. -/
def closing : List ℕ := s.calls.filterMap Call.closing

/-- The accepted fds whose `close` or `error` has not arrived. -/
def clients : Finset ℕ := s.accepted \ s.ended

/-- The accepted fds in the table of connections. -/
def connected : Finset ℕ :=
  s.accepted.filter fun fd => (s.connection fd).isSome

/-- No call is left that could take the fd out of the table. -/
def Lost (fd : ℕ) : Prop :=
  fd ∈ s.connected ∧ fd ∈ s.ended ∧ fd ∉ s.closing

/-- The counter agrees with the clients, and with the refusals that follow. -/
def InStep (h : Handler) : Prop :=
  s.clientNumber = s.clients.card ∧
    ∀ fd s' maxclient, step h s (.open fd) = .next s' →
      s.maxclient = some maxclient →
        (fd ∉ s'.accepted ↔ maxclient ≤ s.clients.card)

end State

/-- No disconnect or error function raises an error for an accepted fd. -/
def careful (s : State) : Label → Prop
  | .raise c => ∀ fd, c.closing = some fd → fd ∉ s.accepted
  | _ => True

/-- The label is no error of a disconnect or error function. -/
def Label.quiet : Label → Bool
  | .raise c => c.closing.isNone
  | _ => true

theorem careful_of_quiet (s : State) (l : Label) (h : l.quiet = true) :
    careful s l := by
  cases l with
  | raise c =>
      intro fd hfd
      rw [Label.quiet, hfd] at h
      cases h
  | _ => trivial

namespace State

variable {s : State} {fd : ℕ}

theorem mem_connected :
    fd ∈ s.connected ↔ fd ∈ s.accepted ∧ (s.connection fd).isSome := by
  rw [connected, Finset.mem_filter]

/-- The variables after `MSG.open` has accepted a client. -/
def accepting (s : State) (fd : ℕ) : State :=
  { s with
    opened := insert fd s.opened
    connection := Function.update s.connection fd (some true)
    clientNumber := s.clientNumber + 1
    accepted := insert fd s.accepted }

theorem closeFd_eq :
    s.closeFd fd =
      { s with
        connection := Function.update s.connection fd none
        clientNumber :=
          s.clientNumber - if (s.connection fd).isSome then 1 else 0 } := by
  unfold closeFd
  cases hfd : s.connection fd with
  | some b => rfl
  | none =>
      have hsame : Function.update s.connection fd none = s.connection := by
        rw [← hfd, Function.update_eq_self]
      simp [hsame]

/-- A call that has ended is no longer in progress. -/
theorem mem_closing_erase
    {c : Call} (hc : c ∈ s.calls) (honce : s.closing.Nodup)
    (hfd : c.closing = some fd) (fd' : ℕ) :
    fd' ∈ closing { s with calls := s.calls.erase c } ↔
      fd' ∈ s.closing ∧ fd' ≠ fd := by
  have hperm :
      s.closing.Perm (fd :: (s.calls.erase c).filterMap Call.closing) := by
    have h := (List.perm_cons_erase hc).filterMap Call.closing
    rwa [List.filterMap_cons_some hfd] at h
  have hnot := (List.nodup_cons.mp (hperm.nodup_iff.mp honce)).1
  rw [hperm.mem_iff, List.mem_cons, closing]
  constructor
  · intro hmem
    refine ⟨Or.inr hmem, ?_⟩
    rintro rfl
    exact hnot hmem
  · rintro ⟨rfl | hmem, hne⟩
    · exact absurd rfl hne
    · exact hmem

end State

/-! ## Every fd is counted until it is closed -/

/-- What the events and the calls keep. -/
structure Kept (s : State) : Prop where
  socket : ∀ fd, s.socket = some fd → fd ∉ s.opened
  opened : s.accepted ⊆ s.opened
  connection : ∀ fd, (s.connection fd).isSome → fd ∈ s.accepted
  number : s.clientNumber = s.connected.card
  clients : s.clients ⊆ s.connected
  closing : ∀ fd ∈ s.closing, fd ∈ s.ended
  pending : ∀ fd ∈ s.closing, fd ∈ s.accepted → fd ∈ s.connected
  once : s.closing.Nodup

theorem kept_start : Kept start where
  socket := by simp [start]
  opened := by simp [start]
  connection := by simp [start]
  number := rfl
  clients := by simp [start, State.clients]
  closing := by simp [start, State.closing]
  pending := by simp [start, State.closing]
  once := List.nodup_nil

/-- States that agree on the fds and on their calls. -/
structure Agrees (s s' : State) : Prop where
  opened : s'.opened = s.opened
  accepted : s'.accepted = s.accepted
  ended : s'.ended = s.ended
  number : s'.clientNumber = s.clientNumber
  connection : ∀ fd, (s'.connection fd).isSome = (s.connection fd).isSome
  closing : s'.closing.Perm s.closing

namespace Agrees

variable {s s' : State}

theorem connected_eq (h : Agrees s s') : s'.connected = s.connected := by
  ext fd
  rw [State.mem_connected, State.mem_connected, h.accepted, h.connection]

theorem clients_eq (h : Agrees s s') : s'.clients = s.clients := by
  rw [State.clients, State.clients, h.accepted, h.ended]

theorem lost (h : Agrees s s') (fd : ℕ) : s'.Lost fd ↔ s.Lost fd := by
  rw [State.Lost, State.Lost, h.connected_eq, h.ended, h.closing.mem_iff]

theorem kept
    (h : Agrees s s') (hkept : Kept s)
    (hsocket : ∀ fd, s'.socket = some fd → fd ∉ s.opened) : Kept s' where
  socket := by rwa [h.opened]
  opened := by rw [h.accepted, h.opened]; exact hkept.opened
  connection fd hfd := by
    rw [h.accepted]
    exact hkept.connection fd (by rwa [← h.connection])
  number := by rw [h.number, h.connected_eq]; exact hkept.number
  clients := by rw [h.clients_eq, h.connected_eq]; exact hkept.clients
  closing fd hfd := by
    rw [h.ended]
    exact hkept.closing fd (h.closing.mem_iff.mp hfd)
  pending fd hfd hacc := by
    rw [h.connected_eq]
    exact hkept.pending fd (h.closing.mem_iff.mp hfd) (by rwa [← h.accepted])
  once := h.closing.nodup_iff.mpr hkept.once

/-- A call of a function that does not close. -/
theorem call {c : Call} (hc : c.closing = none) : Agrees s (s.call c) where
  opened := rfl
  accepted := rfl
  ended := rfl
  number := rfl
  connection _ := rfl
  closing := by simp [State.closing, State.call, hc]

/-- The end of such a call. -/
theorem erase
    {c : Call} (hmem : c ∈ s.calls) (hc : c.closing = none) :
    Agrees s { s with calls := s.calls.erase c } where
  opened := rfl
  accepted := rfl
  ended := rfl
  number := rfl
  connection _ := rfl
  closing := by
    have h := (List.perm_cons_erase hmem).filterMap Call.closing
    rw [List.filterMap_cons_none hc] at h
    exact h.symm

theorem closeclient (fd : ℕ) : Agrees s (s.closeclient fd) := by
  unfold State.closeclient
  split
  · rename_i hfd
    refine ⟨rfl, rfl, rfl, rfl, fun fd' => ?_, List.Perm.refl _⟩
    rcases eq_or_ne fd' fd with rfl | hne
    · simp [hfd]
    · simp [hne]
  · exact ⟨rfl, rfl, rfl, rfl, fun _ => rfl, List.Perm.refl _⟩

theorem listen (maxclient : Option ℤ) (socket : Option ℕ) :
    Agrees s (s.listen maxclient socket) := by
  unfold State.listen
  split <;> exact ⟨rfl, rfl, rfl, rfl, fun _ => rfl, List.Perm.refl _⟩

end Agrees

namespace Kept

variable {s : State} {fd : ℕ}

theorem mem_clients (hfd : fd ∈ s.accepted) (hended : fd ∉ s.ended) :
    fd ∈ s.clients :=
  Finset.mem_sdiff.mpr ⟨hfd, hended⟩

theorem connected_accepting :
    (s.accepting fd).connected = insert fd s.connected := by
  ext fd'
  rw [Finset.mem_insert, State.mem_connected, State.mem_connected,
    State.accepting]
  rcases eq_or_ne fd' fd with rfl | hne
  · simp
  · simp [hne]

/-- A client is accepted. -/
theorem accepting
    (h : Kept s) (hfd : fd ∉ s.opened) (hended : fd ∉ s.ended)
    (hsocket : s.socket ≠ some fd) : Kept (s.accepting fd) := by
  have hnew : fd ∉ s.accepted := fun hmem => hfd (h.opened hmem)
  refine ⟨fun fd' hfd' => ?_, Finset.insert_subset_insert _ h.opened,
    fun fd' hfd' => ?_, ?_, ?_, h.closing, fun fd' hfd' hacc => ?_, h.once⟩
  · rw [State.accepting, Finset.mem_insert, not_or]
    refine ⟨?_, h.socket fd' hfd'⟩
    rintro rfl
    exact hsocket hfd'
  · rcases eq_or_ne fd' fd with rfl | hne
    · exact Finset.mem_insert_self _ _
    · simp only [State.accepting, Function.update_of_ne hne] at hfd'
      exact Finset.mem_insert_of_mem (h.connection fd' hfd')
  · have hnot : fd ∉ s.connected := fun hmem =>
      hnew (State.mem_connected.mp hmem).1
    rw [connected_accepting, Finset.card_insert_of_notMem hnot,
      State.accepting, h.number]
    rfl
  · intro fd' hfd'
    obtain ⟨hacc, hlive⟩ := Finset.mem_sdiff.mp hfd'
    rw [connected_accepting]
    rcases Finset.mem_insert.mp hacc with rfl | hold
    · exact Finset.mem_insert_self _ _
    · exact Finset.mem_insert_of_mem (h.clients (mem_clients hold hlive))
  · rw [connected_accepting]
    rcases Finset.mem_insert.mp hacc with rfl | hold
    · exact absurd (h.closing _ hfd') hended
    · exact Finset.mem_insert_of_mem (h.pending fd' hfd' hold)

theorem lost_accepting (hended : fd ∉ s.ended) (fd' : ℕ) :
    (s.accepting fd).Lost fd' ↔ s.Lost fd' := by
  rw [State.Lost, State.Lost, connected_accepting, Finset.mem_insert]
  refine ⟨fun ⟨hmem, hold⟩ => ⟨hmem.resolve_left ?_, hold⟩,
    fun ⟨hmem, hold⟩ => ⟨Or.inr hmem, hold⟩⟩
  rintro rfl
  exact hended hold.1

/-- The end of an fd arrives. -/
theorem arrive (h : Kept s) : Kept { s with ended := insert fd s.ended } where
  socket := h.socket
  opened := h.opened
  connection := h.connection
  number := h.number
  clients fd' hfd' := by
    obtain ⟨hacc, hlive⟩ := Finset.mem_sdiff.mp hfd'
    refine h.clients (mem_clients hacc fun hmem => hlive ?_)
    exact Finset.mem_insert_of_mem hmem
  closing fd' hfd' := Finset.mem_insert_of_mem (h.closing fd' hfd')
  pending := h.pending
  once := h.once

/-- The listen socket is closed. -/
theorem socketClosed (h : Kept s) : Kept { s with socket := none } where
  socket fd' hfd' := by cases hfd'
  opened := h.opened
  connection := h.connection
  number := h.number
  clients := h.clients
  closing := h.closing
  pending := h.pending
  once := h.once

/-- A disconnect or error function is called. -/
theorem call (h : Kept s) {c : Call} (hc : c.closing = some fd)
    (hended : fd ∈ s.ended) (hnot : fd ∉ s.closing)
    (hpending : fd ∈ s.accepted → fd ∈ s.connected) : Kept (s.call c) := by
  have hclosing : (s.call c).closing = s.closing ++ [fd] := by
    simp [State.closing, State.call, hc]
  refine ⟨h.socket, h.opened, h.connection, h.number, h.clients,
    fun fd' hfd' => ?_, fun fd' hfd' hacc => ?_, ?_⟩
  · rw [hclosing, List.mem_append, List.mem_singleton] at hfd'
    rcases hfd' with hold | rfl
    · exact h.closing fd' hold
    · exact hended
  · rw [hclosing, List.mem_append, List.mem_singleton] at hfd'
    rcases hfd' with hold | rfl
    · exact h.pending fd' hold hacc
    · exact hpending hacc
  · rw [hclosing]
    refine List.nodup_append.mpr ⟨h.once, List.nodup_singleton fd, ?_⟩
    rintro a ha b hb rfl
    exact hnot (List.mem_singleton.mp hb ▸ ha)

/-- Such a function ends. -/
theorem erase (h : Kept s) {c : Call} (hmem : c ∈ s.calls)
    (hc : c.closing = some fd) :
    Kept { s with calls := s.calls.erase c } := by
  refine ⟨h.socket, h.opened, h.connection, h.number, h.clients,
    fun fd' hfd' => ?_, fun fd' hfd' => ?_, ?_⟩
  · exact h.closing fd' ((State.mem_closing_erase hmem h.once hc fd').mp hfd').1
  · exact h.pending fd' ((State.mem_closing_erase hmem h.once hc fd').mp hfd').1
  · exact h.once.sublist ((List.erase_sublist).filterMap _)

theorem connected_closeFd :
    (s.closeFd fd).connected = s.connected.erase fd := by
  ext fd'
  rw [Finset.mem_erase, State.mem_connected, State.mem_connected,
    State.closeFd_eq]
  rcases eq_or_ne fd' fd with rfl | hne
  · simp
  · simp [hne]

theorem closeFd (h : Kept s) (hended : fd ∈ s.ended) (hnot : fd ∉ s.closing) :
    Kept (s.closeFd fd) := by
  have hconnected : (s.closeFd fd).connected = s.connected.erase fd :=
    connected_closeFd
  rw [State.closeFd_eq] at hconnected ⊢
  refine ⟨h.socket, h.opened, fun fd' hfd' => ?_, ?_, fun fd' hfd' => ?_,
    h.closing, fun fd' hfd' hacc => ?_, h.once⟩
  · rcases eq_or_ne fd' fd with rfl | hne
    · simp at hfd'
    · simp only [Function.update_of_ne hne] at hfd'
      exact h.connection fd' hfd'
  · rw [hconnected, h.number]
    by_cases hfd : fd ∈ s.connected
    · have hcard := Finset.card_erase_add_one hfd
      rw [if_pos (State.mem_connected.mp hfd).2]
      show (s.connected.card : ℤ) - 1 = (s.connected.erase fd).card
      omega
    · have hnone : ¬(s.connection fd).isSome := fun hsome =>
        hfd (State.mem_connected.mpr ⟨h.connection fd hsome, hsome⟩)
      rw [if_neg hnone, Finset.erase_eq_of_notMem hfd]
      exact Int.sub_zero _
  · rw [hconnected]
    refine Finset.mem_erase.mpr ⟨?_, h.clients hfd'⟩
    rintro rfl
    exact (Finset.mem_sdiff.mp hfd').2 hended
  · rw [hconnected]
    refine Finset.mem_erase.mpr ⟨?_, h.pending fd' hfd' hacc⟩
    rintro rfl
    exact hnot hfd'

/-- The fd is lost between the arrival of its end and the next action. -/
theorem lost_arrive (fd' : ℕ) :
    State.Lost { s with ended := insert fd s.ended } fd' →
      s.Lost fd' ∨ fd' = fd := by
  rintro ⟨hmem, hended, hnot⟩
  rcases Finset.mem_insert.mp hended with rfl | hold
  · exact Or.inr rfl
  · exact Or.inl ⟨hmem, hold, hnot⟩

theorem lost_call {c : Call} (hc : c.closing = some fd) (fd' : ℕ) :
    (s.call c).Lost fd' ↔ s.Lost fd' ∧ fd' ≠ fd := by
  have hclosing : (s.call c).closing = s.closing ++ [fd] := by
    simp [State.closing, State.call, hc]
  rw [State.Lost, State.Lost, hclosing, List.mem_append, List.mem_singleton,
    not_or, and_assoc, and_assoc]
  rfl

theorem lost_closeFd (fd' : ℕ) :
    (s.closeFd fd).Lost fd' ↔ s.Lost fd' ∧ fd' ≠ fd := by
  rw [State.Lost, State.Lost, connected_closeFd, Finset.mem_erase,
    State.closeFd_eq]
  constructor
  · rintro ⟨⟨hne, hmem⟩, hrest⟩
    exact ⟨⟨hmem, hrest⟩, hne⟩
  · rintro ⟨⟨hmem, hrest⟩, hne⟩
    exact ⟨⟨hne, hmem⟩, hrest⟩

/-- The end of a disconnect or error function loses the fd if it is not taken
out of the table. -/
theorem lost_erase (h : Kept s) {c : Call} (hmem : c ∈ s.calls)
    (hc : c.closing = some fd) (fd' : ℕ) :
    State.Lost { s with calls := s.calls.erase c } fd' ↔
      s.Lost fd' ∨ fd' = fd ∧ fd ∈ s.accepted := by
  have hin : fd ∈ s.closing := List.mem_filterMap.mpr ⟨c, hmem, hc⟩
  rw [State.Lost, State.mem_closing_erase hmem h.once hc, not_and_or,
    not_not]
  constructor
  · rintro ⟨hcon, hended, hnot | rfl⟩
    · exact Or.inl ⟨hcon, hended, hnot⟩
    · exact Or.inr ⟨rfl, (State.mem_connected.mp hcon).1⟩
  · rintro (⟨hcon, hended, hnot⟩ | ⟨rfl, hacc⟩)
    · exact ⟨hcon, hended, Or.inl hnot⟩
    · exact ⟨h.pending _ hin hacc, h.closing _ hin, Or.inr rfl⟩

end Kept

/-! ## The steps -/

/-- The fds that a step loses. -/
def loses (s : State) : Label → ℕ → Prop
  | .raise c, fd => c.closing = some fd ∧ fd ∈ s.accepted
  | _, _ => False

theorem careful_iff (s : State) (l : Label) :
    careful s l ↔ ∀ fd, ¬loses s l fd := by
  cases l with
  | raise c => exact forall_congr' fun fd => not_and.symm
  | _ => exact iff_of_true trivial fun fd => id

/-- The invariant holds afterwards, and only `new` is lost. -/
structure Moves (s s' : State) (new : ℕ → Prop) : Prop where
  kept : Kept s'
  lost : ∀ fd, s'.Lost fd ↔ s.Lost fd ∨ new fd

namespace Kept

variable {s s' : State} {fd : ℕ}

theorem moves_of_agrees
    (h : Kept s) (ha : Agrees s s')
    (hsocket : ∀ fd, s'.socket = some fd → fd ∉ s.opened) :
    Moves s s' fun _ => False :=
  ⟨ha.kept h hsocket, fun fd' => by rw [ha.lost, or_false]⟩

theorem moves_open
    (h : Kept s) (hfd : fd ∉ s.opened) (hended : fd ∉ s.ended)
    (hsocket : s.socket ≠ some fd) :
    Moves s (State.msgOpen { s with opened := insert fd s.opened } fd)
      fun _ => False := by
  have hrefused : Moves s { s with opened := insert fd s.opened }
      fun _ => False := by
    refine ⟨⟨fun fd' hfd' => ?_, ?_, h.connection, h.number, h.clients,
      h.closing, h.pending, h.once⟩, fun fd' => (or_false _).symm.to_iff⟩
    · rw [Finset.mem_insert, not_or]
      refine ⟨?_, h.socket fd' hfd'⟩
      rintro rfl
      exact hsocket hfd'
    · exact h.opened.trans (Finset.subset_insert _ _)
  unfold State.msgOpen
  split
  · exact hrefused
  · split
    · exact hrefused
    · have hnext := h.accepting hfd hended hsocket
      have hcall : Agrees (s.accepting fd)
          ((s.accepting fd).call (.connect fd)) := .call rfl
      refine ⟨hcall.kept hnext hnext.socket, fun fd' => ?_⟩
      rw [or_false, ← lost_accepting hended fd']
      exact hcall.lost fd'

/-- The end of a client that is not handled yet. -/
theorem moves_end
    (h : Kept s) (hended : fd ∉ s.ended) {c : Call}
    (hc : c.closing = some fd) (handled : Bool) :
    Moves s
      (if handled then State.call { s with ended := insert fd s.ended } c
        else State.closeFd { s with ended := insert fd s.ended } fd)
      fun _ => False := by
  have harrive : Kept { s with ended := insert fd s.ended } := h.arrive
  have hmem : fd ∈ insert fd s.ended := Finset.mem_insert_self _ _
  have hnot : fd ∉ s.closing := fun hin => hended (h.closing fd hin)
  have hold : ∀ fd', (State.Lost { s with ended := insert fd s.ended } fd' ∧
      fd' ≠ fd) ↔ s.Lost fd' ∨ False := by
    intro fd'
    rw [or_false]
    constructor
    · rintro ⟨hlost, hne⟩
      exact (lost_arrive fd' hlost).resolve_right hne
    · rintro ⟨hcon, hend, hcl⟩
      refine ⟨⟨hcon, Finset.mem_insert_of_mem hend, hcl⟩, ?_⟩
      rintro rfl
      exact hended hend
  split
  · refine ⟨harrive.call hc hmem hnot fun hacc => ?_, fun fd' => ?_⟩
    · exact h.clients (mem_clients hacc hended)
    · rw [lost_call hc, hold]
  · refine ⟨harrive.closeFd hmem hnot, fun fd' => ?_⟩
    rw [lost_closeFd, hold]

/-- The listen socket is closed. -/
theorem moves_socket (h : Kept s) (hsocket : s.socket = some fd) :
    Moves s { s with ended := insert fd s.ended, socket := none }
      fun _ => False := by
  have harrive : Kept { s with ended := insert fd s.ended } := h.arrive
  refine ⟨harrive.socketClosed, fun fd' => ?_⟩
  rw [or_false]
  constructor
  · intro hlost
    refine (lost_arrive fd' hlost).resolve_right ?_
    rintro rfl
    exact h.socket _ hsocket (h.opened (State.mem_connected.mp hlost.1).1)
  · rintro ⟨hcon, hend, hcl⟩
    exact ⟨hcon, Finset.mem_insert_of_mem hend, hcl⟩

theorem moves_ret (h : Kept s) {c : Call} (hmem : c ∈ s.calls) :
    Moves s (State.resume { s with calls := s.calls.erase c } c)
      fun _ => False := by
  unfold State.resume
  split
  · rename_i fd hc
    have hin : fd ∈ s.closing := List.mem_filterMap.mpr ⟨c, hmem, hc⟩
    have hout : fd ∉ State.closing { s with calls := s.calls.erase c } :=
      fun hmem' => ((State.mem_closing_erase hmem h.once hc fd).mp hmem').2 rfl
    refine ⟨(h.erase hmem hc).closeFd (h.closing fd hin) hout, fun fd' => ?_⟩
    rw [lost_closeFd, h.lost_erase hmem hc, or_false]
    constructor
    · rintro ⟨hlost | ⟨heq, -⟩, hne⟩
      · exact hlost
      · exact absurd heq hne
    · intro hlost
      refine ⟨Or.inl hlost, ?_⟩
      rintro rfl
      exact hlost.2.2 hin
  · rename_i hc
    exact h.moves_of_agrees (.erase hmem hc) h.socket

theorem moves_raise (h : Kept s) {c : Call} (hmem : c ∈ s.calls) :
    Moves s { s with calls := s.calls.erase c } (loses s (.raise c)) := by
  cases hc : c.closing with
  | none =>
      have hmoves := h.moves_of_agrees (.erase hmem hc) h.socket
      refine ⟨hmoves.kept, fun fd => ?_⟩
      rw [hmoves.lost, loses, hc]
      simp
  | some fd =>
      refine ⟨h.erase hmem hc, fun fd' => ?_⟩
      rw [h.lost_erase hmem hc, loses, hc, Option.some_inj]
      refine or_congr_right ⟨?_, ?_⟩
      · rintro ⟨rfl, hacc⟩
        exact ⟨rfl, hacc⟩
      · rintro ⟨rfl, hacc⟩
        exact ⟨rfl, hacc⟩

end Kept

variable {h : Handler} {s s' : State} {l : Label}

theorem Kept.step
    (hkept : Kept s) (hs : step h s l = .next s') : Moves s s' (loses s l) := by
  have hagrees : ∀ {t : State}, Agrees s t → t.socket = s.socket →
      Moves s t fun _ => False := fun ha hsame =>
    hkept.moves_of_agrees ha fun fd hfd => hkept.socket fd (hsame ▸ hfd)
  have hsame : Agrees s s := ⟨rfl, rfl, rfl, rfl, fun _ => rfl, .refl _⟩
  cases l with
  | listen maxclient socket =>
      simp only [Gateserver.step] at hs
      split at hs
      · cases hs
      · rename_i hnew
        cases hs
        refine hkept.moves_of_agrees (.listen maxclient socket) fun fd hfd => ?_
        unfold State.listen at hfd
        split at hfd
        · exact hkept.socket fd hfd
        · exact fun hmem => hnew ⟨fd, hfd, Or.inl hmem⟩
  | «open» fd =>
      simp only [Gateserver.step] at hs
      split at hs
      · cases hs
      · rename_i hnew
        cases hs
        rw [not_or, not_or] at hnew
        exact hkept.moves_open hnew.1 hnew.2.1 hnew.2.2
  | dispatchMsg fd =>
      cases hs
      unfold State.dispatchMsg
      split
      · exact hagrees (.call rfl) rfl
      · exact hagrees hsame rfl
  | close fd =>
      simp only [Gateserver.step] at hs
      split at hs
      · cases hs
      · rename_i hended
        cases hs
        unfold State.msgClose
        split
        · rename_i hsocket
          exact hkept.moves_socket hsocket
        · exact hkept.moves_end hended rfl h.disconnect
  | error fd =>
      simp only [Gateserver.step] at hs
      split at hs
      · cases hs
      · rename_i hended
        split at hs
        · cases hs
          exact hagrees hsame rfl
        · cases hs
          exact hkept.moves_end hended rfl h.error
  | warning fd =>
      cases hs
      unfold State.msgWarning
      split
      · exact hagrees (.call rfl) rfl
      · exact hagrees hsame rfl
  | openclient fd =>
      cases hs
      exact hagrees hsame rfl
  | closeclient fd =>
      cases hs
      refine hagrees (.closeclient fd) ?_
      unfold State.closeclient
      split <;> rfl
  | ret c =>
      simp only [Gateserver.step] at hs
      split at hs
      · rename_i hmem
        cases hs
        exact hkept.moves_ret hmem
      · cases hs
  | raise c =>
      simp only [Gateserver.step] at hs
      split at hs
      · rename_i hmem
        cases hs
        exact hkept.moves_raise hmem
      · cases hs

theorem kept_of_reaches (hs : Reaches (step h) anyStep start s) : Kept s :=
  hs.invariant Kept kept_start fun _ _ _ hkept _ hstep =>
    (hkept.step hstep).kept

/-- The fds that are lost tell whether all steps were careful. -/
theorem lost_iff
    {ls : List Label} (hs : exec (step h) start ls = .next s) :
    (∀ fd, ¬s.Lost fd) ↔ EveryStep (step h) start careful ls := by
  refine everyStep_iff_last (P := fun t => ∀ fd, ¬t.Lost fd) Kept
    kept_start ?_ ?_ ?_ hs
  · rintro fd ⟨hcon, -⟩
    simp [State.connected, start] at hcon
  · exact fun t l t' hkept hstep => (hkept.step hstep).kept
  · intro t l t' hkept hstep
    rw [careful_iff, ← forall_and]
    refine forall_congr' fun fd => ?_
    rw [(hkept.step hstep).lost, not_or]

/-- While nothing is lost, the counter is ahead by the clients whose end is
being handled. -/
theorem Kept.clientNumber_eq
    (hkept : Kept s) (hlost : ∀ fd, ¬s.Lost fd) :
    s.clientNumber =
      s.clients.card + (s.accepted.filter (· ∈ s.closing)).card := by
  have hparts :
      s.connected = s.clients ∪ s.accepted.filter (· ∈ s.closing) := by
    ext fd
    rw [Finset.mem_union, Finset.mem_filter]
    constructor
    · intro hcon
      have hacc := (State.mem_connected.mp hcon).1
      by_cases hended : fd ∈ s.ended
      · refine Or.inr ⟨hacc, ?_⟩
        by_contra hnot
        exact hlost fd ⟨hcon, hended, hnot⟩
      · exact Or.inl (mem_clients hacc hended)
    · rintro (hmem | ⟨hacc, hin⟩)
      · exact hkept.clients hmem
      · exact hkept.pending fd hin hacc
  have hdisjoint : Disjoint s.clients (s.accepted.filter (· ∈ s.closing)) := by
    refine Finset.disjoint_left.mpr fun fd hmem hin => ?_
    have hended := hkept.closing fd (Finset.mem_filter.mp hin).2
    exact (Finset.mem_sdiff.mp hmem).2 hended
  rw [hkept.number, hparts, Finset.card_union_of_disjoint hdisjoint]
  rfl

/-- An fd that is lost is counted for ever. -/
theorem Kept.lt_clientNumber
    (hkept : Kept s) {fd : ℕ} (hlost : s.Lost fd) :
    (s.clients.card : ℤ) < s.clientNumber := by
  have hsub : s.clients ⊂ s.connected := by
    refine Finset.ssubset_iff_subset_ne.mpr ⟨hkept.clients, fun heq => ?_⟩
    have hmem : fd ∈ s.clients := heq ▸ hlost.1
    exact (Finset.mem_sdiff.mp hmem).2 hlost.2.1
  rw [hkept.number]
  exact_mod_cast Finset.card_lt_card hsub

/-- `MSG.open` goes by the counter. -/
theorem Kept.refused_iff
    (hkept : Kept s) {fd : ℕ} {maxclient : ℤ}
    (hs : Gateserver.step h s (.open fd) = .next s')
    (hmax : s.maxclient = some maxclient) :
    fd ∉ s'.accepted ↔ maxclient ≤ s.clientNumber := by
  simp only [Gateserver.step] at hs
  split at hs
  · cases hs
  · rename_i hnew
    cases hs
    rw [not_or] at hnew
    simp only [State.msgOpen, hmax]
    split
    · rename_i hfull
      exact iff_of_true (fun hmem => hnew.1 (hkept.opened hmem)) hfull
    · rename_i hroom
      refine iff_of_false (fun hnot => hnot ?_) hroom
      exact Finset.mem_insert_self _ _

/-- Whenever no call is in progress, the counter agrees with the clients if and
only if no disconnect or error function has raised an error for an accepted
fd. -/
theorem clientNumber_iff
    (h : Handler) (ls : List Label) (s : State)
    (hs : exec (step h) start ls = .next s) (hquiet : s.calls = []) :
    s.InStep h ↔ EveryStep (step h) start careful ls := by
  have hkept := kept_of_reaches (reaches_of_exec hs)
  rw [← lost_iff hs]
  constructor
  · intro hin fd hlost
    have hlt := hkept.lt_clientNumber hlost
    rw [hin.1] at hlt
    exact lt_irrefl _ hlt
  · intro hlost
    have hclosing : s.closing = [] := by rw [State.closing, hquiet]; rfl
    have hnumber : s.clientNumber = s.clients.card := by
      rw [hkept.clientNumber_eq hlost, hclosing]
      simp
    refine ⟨hnumber, fun fd s' maxclient hopen hmax => ?_⟩
    rw [hkept.refused_iff hopen hmax, hnumber]

/-- A client comes and goes, and the next one is accepted, although `connect`
raises an error. -/
theorem clientNumber_connect_raises :
    ∃ s, exec (step ⟨true, true, true⟩) start
        [.listen (some 1) (some 0), .open 1, .raise (.connect 1), .close 1,
          .ret (.disconnect 1), .open 2, .ret (.connect 2)] = .next s ∧
      s.InStep ⟨true, true, true⟩ := by
  have hrun : (execWhile (step ⟨true, true, true⟩)
      (fun _ => Label.quiet) start
      [.listen (some 1) (some 0), .open 1, .raise (.connect 1), .close 1,
        .ret (.disconnect 1), .open 2, .ret (.connect 2)]).passes
      (fun s => s.calls = []) = true := by
    decide
  obtain ⟨s, hexec, hquiet⟩ := Outcome.exists_of_passes hrun
  obtain ⟨hcareful, hs⟩ := everyStep_of_execWhile careful_of_quiet hexec
  exact ⟨s, hs, (clientNumber_iff _ _ s hs (of_decide_eq_true hquiet)).mpr
    hcareful⟩

/-- The disconnect function raises an error: the only place stays taken, and the
next client is refused while none is connected. -/
theorem clientNumber_disconnect_raises :
    ∃ s, exec (step ⟨true, true, true⟩) start
        [.listen (some 1) (some 0), .open 1, .ret (.connect 1), .close 1,
          .raise (.disconnect 1), .open 2] = .next s ∧
      s.calls = [] ∧ s.clients = ∅ ∧ s.clientNumber = 1 ∧ 2 ∉ s.accepted ∧
      ¬s.InStep ⟨true, true, true⟩ := by
  have hrun : (exec (step ⟨true, true, true⟩) start
      [.listen (some 1) (some 0), .open 1, .ret (.connect 1), .close 1,
        .raise (.disconnect 1), .open 2]).passes
      (fun s => s.calls = [] ∧ s.clients = ∅ ∧ s.clientNumber = 1 ∧
        2 ∉ s.accepted) = true := by
    decide
  obtain ⟨s, hexec, htest⟩ := Outcome.exists_of_passes hrun
  obtain ⟨hquiet, hnone, hone, hrefused⟩ := of_decide_eq_true htest
  refine ⟨s, hexec, hquiet, hnone, hone, hrefused, fun hin => ?_⟩
  have hnumber := hin.1
  rw [hone, hnone] at hnumber
  cases hnumber

end SkynetServer.Gateserver
