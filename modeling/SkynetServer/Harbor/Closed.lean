import SkynetServer.Harbor.Delivery

/-!
# A link that `close_harbor` has closed

`remote_send_handle` and `dispatch_name_queue` ask for `STATUS_DOWN` only when
the link has no fd.  The fd of a link is never taken back, so after
`close_harbor` messages are still written to the closed socket, and their
sources get no error.
-/

namespace SkynetServer.Harbor

open Transition

namespace State

/-- `close_harbor` was called for the harbor. -/
def Closed (h : State) (k : ℕ) : Prop := (h.s k).status = .down

/-- The handle that `remote_send_handle` gets, if it is called. -/
def target (h : State) (handle : Handle) (name : Name) : Option Handle :=
  if handle ≠ 0 then some handle
  else if (h.map name).value ≠ 0 then some (h.map name).value
  else none

/-- The outputs of a step. -/
def since (h h' : State) : List Output := h'.out.drop h.out.length

/-- `send_remote` writes the message. -/
def Sendable (m : HarborMsg) : Prop := m.buffer.length + 12 ≤ 0xffffffff

/-- A message to a harbor whose link was closed is reported to its source and
not written, and what waits for a name in such a harbor is dropped. -/
def Respects (h : State) (l : Label) : Prop :=
  ∀ h', h.step l = .next h' →
    match l with
    | .system source handle name _ _ _ =>
      ∀ destination, h.target handle name = some destination →
        h.Closed (harborId destination) → source ≠ 0 →
          .dead destination source ∈ since h h' ∧
            ∀ m, .remote (h.s (harborId destination)).fd m ∉ since h h'
    | .name _ handle =>
      h.Closed (harborId handle) →
        since h h' = [] ∧
          (h'.s (harborId handle)).queue = (h.s (harborId handle)).queue
    | _ => True

/-- No message with a source goes to a harbor whose link was closed, and no
message that can be sent waits for a name which gets a handle there. -/
def SparesClosed (h : State) : Label → Prop
  | .system source handle name _ _ _ =>
    ∀ destination, h.target handle name = some destination →
      h.Closed (harborId destination) → source = 0
  | .name name handle =>
    handle ≠ 0 → name.length ≠ 0 → name.length < 16 →
      h.Closed (harborId handle) →
        ∀ queue, (h.map name).queue = some queue → ∀ m ∈ queue, ¬ Sendable m
  | _ => True

/-! ## The fd of a link stays -/

/-- A link has an fd until the end of the service, and the socket of a link
that is down was closed. -/
structure Fixed (h : State) : Prop where
  unlinked : ∀ k, (h.s k).fd = 0 → (h.s k).status = .wait
  closed : ∀ k, h.Closed k → .close (h.s k).fd ∈ h.out

section Fixed

variable {h h' : State} {k : ℕ}

theorem fixed_init (slave : Handle) : (init slave).Fixed where
  unlinked _ _ := rfl
  closed k hdown := by cases hdown

theorem Fixed.fd_ne_zero (hfixed : h.Fixed) (hdown : h.Closed k) :
    (h.s k).fd ≠ 0 := by
  intro hzero
  have hwait := hfixed.unlinked k hzero
  rw [Closed, hwait] at hdown
  cases hdown

theorem Fixed.same
    (hfixed : h.Fixed) (hlinks : SameLinks h h') (hout : h.out <+: h'.out) :
    h'.Fixed where
  unlinked c hzero := by
    rw [(hlinks c).1] at hzero
    rw [(hlinks c).2]
    exact hfixed.unlinked c hzero
  closed c hdown := by
    rw [(hlinks c).1]
    exact hout.subset (hfixed.closed c ((hlinks c).2.symm.trans hdown))

theorem Fixed.emit (hfixed : h.Fixed) (os : List Output) :
    (h.emit os).Fixed :=
  hfixed.same (fun _ => ⟨rfl, rfl⟩) (List.prefix_append _ _)

/-- A link gets a new status. -/
theorem Fixed.setSlave
    {s : Slave} (hfixed : h.Fixed) (hfd : s.fd = 0 → s.status = .wait)
    (hclosed : s.status = .down → .close s.fd ∈ h.out) :
    (h.setSlave k s).Fixed := by
  constructor
  · intro c hzero
    by_cases hc : c = k
    · subst hc
      rw [setSlave_self] at hzero ⊢
      exact hfd hzero
    · rw [setSlave_of_ne h hc] at hzero ⊢
      exact hfixed.unlinked c hzero
  · intro c hdown
    by_cases hc : c = k
    · subst hc
      rw [Closed, setSlave_self] at hdown
      rw [setSlave_self]
      exact hclosed hdown
    · rw [Closed, setSlave_of_ne h hc] at hdown
      rw [setSlave_of_ne h hc]
      exact hfixed.closed c hdown

theorem Fixed.setQueue
    (hfixed : h.Fixed) (k : ℕ) (queue : Option (List HarborMsg)) :
    (h.setSlave k { h.s k with queue }).Fixed :=
  hfixed.same (sameLinks_setQueue h k queue) (List.prefix_refl _)

theorem Fixed.remoteSendHandle
    (hfixed : h.Fixed) (source destination : Handle) (type : BitVec 8)
    (session : BitVec 32) (msg : List UInt8) (ticket : ℕ) :
    (h.remoteSendHandle source destination type session msg
      ticket).Fixed := by
  unfold State.remoteSendHandle
  dsimp only
  split_ifs
  · exact hfixed.emit _
  · exact hfixed.emit _
  · exact hfixed.setQueue _ _
  · exact hfixed.emit _

theorem Fixed.remoteSendName
    (hfixed : h.Fixed) (source : Handle) (name : Name) (type : BitVec 8)
    (session : BitVec 32) (msg : List UInt8) (ticket : ℕ) :
    (h.remoteSendName source name type session msg ticket).Fixed := by
  unfold State.remoteSendName
  dsimp only
  split_ifs
  · exact hfixed.same (fun _ => ⟨rfl, rfl⟩) (List.prefix_append _ _)
  · exact hfixed.remoteSendHandle _ _ _ _ _ _

theorem Fixed.dispatchNameQueue
    (hfixed : h.Fixed) (handle : Handle) (queue : List HarborMsg) :
    (h.dispatchNameQueue handle queue).Fixed := by
  unfold State.dispatchNameQueue
  dsimp only
  split_ifs
  · exact hfixed
  · exact (hfixed.emit _).setQueue _ _
  · exact hfixed.setQueue _ _
  · exact hfixed.emit _

theorem Fixed.dispatchQueue (hfixed : h.Fixed) (k : ℕ) :
    (h.dispatchQueue k).Fixed := by
  unfold State.dispatchQueue
  dsimp only
  split
  · exact hfixed
  · exact (hfixed.emit _).setQueue _ _

theorem Fixed.updateName
    (hfixed : h.Fixed) (name : Name) (handle : Handle) :
    (h.updateName name handle).Fixed := by
  have hbound : ({ h with
      requests := h.requests.map (Request.bind name handle)
        }.setNode name ⟨handle, none⟩).Fixed :=
    hfixed.same (fun _ => ⟨rfl, rfl⟩) (List.prefix_refl _)
  unfold State.updateName
  dsimp only
  split
  · exact hbound
  · exact hbound.dispatchNameQueue _ _

theorem Fixed.closeHarbor (hfixed : h.Fixed) (hfd : (h.s k).fd ≠ 0) :
    (h.closeHarbor k).Fixed := by
  unfold State.closeHarbor
  dsimp only
  rw [if_pos hfd]
  refine (hfixed.emit _).setSlave (fun hzero => absurd hzero hfd) fun _ => ?_
  exact List.mem_append_right _ (List.mem_singleton_self _)

theorem Fixed.receive
    (hfixed : h.Fixed) (hfd : (h.s k).fd ≠ 0) (received : Received) :
    (h.receive k received).Fixed := by
  cases received with
  | header | content =>
      exact hfixed.setSlave (fun hzero => absurd hzero hfd) (by rintro ⟨⟩)
  | tooLong => exact hfixed.closeHarbor hfd

theorem Fixed.link (hfixed : h.Fixed) (accept : Bool) (fd id : ℤ) :
    (h.link accept fd id).Fixed := by
  unfold State.link
  dsimp only
  split_ifs with hvalid hused haccept
  · exact hfixed
  · exact hfixed
  · refine Fixed.dispatchQueue ((hfixed.emit _).setSlave ?_ ?_) _
    · exact fun hzero => absurd (.inl hzero) hvalid
    · rintro ⟨⟩
  · refine (hfixed.emit _).setSlave ?_ ?_
    · exact fun hzero => absurd (.inl hzero) hvalid
    · rintro ⟨⟩

theorem Fixed.pushSocketData
    (hfixed : h.Fixed) (fd : ℤ) (first : UInt8) (received : Received) :
    (h.pushSocketData fd first received).Fixed := by
  unfold State.pushSocketData
  split
  · exact hfixed
  · rename_i k hk
    have hfd : (h.s k).status ≠ .wait → (h.s k).fd ≠ 0 :=
      fun hwait hzero => hwait (hfixed.unlinked k hzero)
    split
    · rename_i hstatus
      have hne : (h.s k).fd ≠ 0 := hfd (by rw [hstatus]; decide)
      split_ifs
      · exact hfixed.closeHarbor hne
      · have hheader : (h.setSlave k { h.s k with status := .header }).Fixed :=
          hfixed.setSlave (fun hzero => absurd hzero hne) (by rintro ⟨⟩)
        refine (hheader.dispatchQueue k).receive ?_ received
        rw [(sameLinks_dispatchQueue _ k k).1, setSlave_self]
        exact hne
    · rename_i hstatus
      exact hfixed.receive (hfd (by rw [hstatus]; decide)) received
    · rename_i hstatus
      exact hfixed.receive (hfd (by rw [hstatus]; decide)) received
    · exact hfixed
    · exact hfixed

theorem fixed_step
    {l : Label} (hfixed : h.Fixed) (hstep : h.step l = .next h') :
    h'.Fixed := by
  cases l with
  | system source handle name type session msg =>
      have haccepted : ({ h with requests := h.requests ++
          [h.request source handle name type session msg] } : State).Fixed :=
        hfixed.same (fun _ => ⟨rfl, rfl⟩) (List.prefix_refl _)
      rw [step] at hstep
      split at hstep
      · cases hstep
        exact haccepted.remoteSendName _ _ _ _ _ _
      · cases hstep
        exact haccepted.remoteSendHandle _ _ _ _ _ _
  | name name handle =>
      rw [step] at hstep
      split_ifs at hstep
      · cases hstep
        exact hfixed
      · cases hstep
        exact hfixed.updateName _ _
  | link accept fd id =>
      cases hstep
      exact hfixed.link _ _ _
  | data fd first received =>
      cases hstep
      exact hfixed.pushSocketData _ _ _
  | close fd =>
      rw [step] at hstep
      split at hstep
      · cases hstep
        exact hfixed.emit _
      · cases hstep
        exact hfixed

end Fixed

/-! ## What is sent over a closed link -/

section Outputs

variable {h h' : State} {handle : Handle} {name : Name}

theorem since_emit (h : State) (os : List Output) :
    since h (h.emit os) = os :=
  List.drop_left

/-- A message to a known handle is given to `remote_send_handle`. -/
theorem step_system
    {destination : Handle} (source : Handle) (type : BitVec 8)
    (session : BitVec 32) (msg : List UInt8)
    (htarget : h.target handle name = some destination) :
    h.step (.system source handle name type session msg) =
      .next (({ h with requests := h.requests ++
        [h.request source handle name type session msg] } :
          State).remoteSendHandle source destination type session msg
            h.requests.length) := by
  rw [target] at htarget
  rw [step]
  split_ifs at htarget with hhandle hvalue
  · cases htarget
    rw [if_neg hhandle]
  · cases htarget
    have hzero : handle = 0 := not_not.mp hhandle
    rw [if_pos hzero]
    unfold State.remoteSendName
    dsimp only
    rw [if_neg hvalue]

/-- The source of a message to a closed link gets no error. -/
theorem dead_not_sent
    {source destination : Handle} (hfixed : h.Fixed)
    (hclosed : h.Closed (harborId destination)) (type : BitVec 8)
    (session : BitVec 32) (msg : List UInt8) (ticket : ℕ) :
    .dead destination source ∉ since h
      (h.remoteSendHandle source destination type session msg ticket) := by
  have hfd := hfixed.fd_ne_zero hclosed
  have hshake : (h.s (harborId destination)).status ≠ .handshake := by
    rw [hclosed]
    decide
  unfold State.remoteSendHandle
  dsimp only
  rw [if_neg (not_or.mpr ⟨hfd, hshake⟩)]
  split_ifs
  · rw [since_emit, List.mem_singleton]
    rintro ⟨⟩
  · rw [since_emit, sendRemote]
    split_ifs
    · exact List.not_mem_nil
    · rw [List.mem_singleton]
      rintro ⟨⟩

theorem sendRemote_eq_nil {fd : ℤ} {m : HarborMsg} :
    sendRemote fd (fillHandle handle m) = [] ↔ ¬ Sendable m := by
  rw [sendRemote, Sendable]
  change (if m.buffer.length + 12 > _ then _ else _) = _ ↔ _
  split_ifs with hlarge
  · exact iff_of_true rfl (Nat.not_le.mpr hlarge)
  · exact iff_of_false not_false (not_not.mpr (Nat.not_lt.mp hlarge))

theorem dispatchNameQueue_linked
    {queue : List HarborMsg} (hfd : (h.s (harborId handle)).fd ≠ 0) :
    h.dispatchNameQueue handle queue = h.emit (queue.flatMap fun m =>
      sendRemote (h.s (harborId handle)).fd (fillHandle handle m)) := by
  unfold State.dispatchNameQueue
  dsimp only
  rw [if_neg hfd]

/-- The queue of a name with a handle behind a closed link is written to the
closed socket. -/
theorem updateName_closed
    (hfixed : h.Fixed) (hclosed : h.Closed (harborId handle)) :
    since h (h.updateName name handle) =
        ((h.map name).queue.getD []).flatMap (fun m =>
          sendRemote (h.s (harborId handle)).fd (fillHandle handle m)) ∧
      ((h.updateName name handle).s (harborId handle)).queue =
        (h.s (harborId handle)).queue := by
  have hfd := hfixed.fd_ne_zero hclosed
  unfold State.updateName
  dsimp only
  split
  · rename_i hnone
    rw [hnone]
    exact ⟨List.drop_length, rfl⟩
  · rename_i queue hsome
    have hlinked : ({ h with
        requests := h.requests.map (Request.bind name handle)
          }.setNode name ⟨handle, none⟩).dispatchNameQueue handle queue = _ :=
      dispatchNameQueue_linked hfd
    rw [hsome, hlinked]
    exact ⟨List.drop_left, rfl⟩

theorem respects_system
    {source : Handle} {type : BitVec 8} {session : BitVec 32}
    {msg : List UInt8} (hfixed : h.Fixed) :
    h.Respects (.system source handle name type session msg) ↔
      h.SparesClosed (.system source handle name type session msg) := by
  constructor
  · intro hrespects destination htarget hclosed
    by_contra hsource
    have hsent := hrespects _ (step_system source type session msg htarget)
      destination htarget hclosed hsource
    have haccepted : ({ h with requests := h.requests ++
        [h.request source handle name type session msg] } : State).Fixed :=
      hfixed.same (fun _ => ⟨rfl, rfl⟩) (List.prefix_refl _)
    exact dead_not_sent haccepted hclosed type session msg _ hsent.1
  · intro hspares h' hstep destination htarget hclosed hsource
    exact absurd (hspares destination htarget hclosed) hsource

theorem respects_name (hfixed : h.Fixed) :
    h.Respects (.name name handle) ↔ h.SparesClosed (.name name handle) := by
  constructor
  · intro hrespects hhandle hempty hlong hclosed queue hqueue m hm
    have hstep : h.step (.name name handle) =
        .next (h.updateName name handle) := by
      rw [step, if_neg hhandle,
        if_neg (not_or.mpr ⟨hempty, Nat.not_le.mpr hlong⟩)]
    have hnone := (hrespects _ hstep hclosed).1
    rw [(updateName_closed hfixed hclosed).1, hqueue, Option.getD_some,
      List.flatMap_eq_nil_iff] at hnone
    exact sendRemote_eq_nil.mp (hnone m hm)
  · intro hspares h' hstep hclosed
    rw [step] at hstep
    split_ifs at hstep with hhandle hname
    · cases hstep
      exact ⟨List.drop_length, rfl⟩
    · cases hstep
      obtain ⟨hempty, hlong⟩ := not_or.mp hname
      refine ⟨?_, (updateName_closed hfixed hclosed).2⟩
      rw [(updateName_closed hfixed hclosed).1, List.flatMap_eq_nil_iff]
      intro m hm
      refine sendRemote_eq_nil.mpr ?_
      cases hwait : (h.map name).queue with
      | none =>
          rw [hwait] at hm
          cases hm
      | some queue =>
          rw [hwait] at hm
          exact hspares hhandle hempty (Nat.not_le.mp hlong) hclosed queue
            hwait m hm

end Outputs

/-- In every run, the messages to harbors whose links were closed are reported
or dropped exactly when there are none: what goes to such a harbor has no
source, and what waits for a name there is too large to be sent. -/
theorem closed_link_respected (slave : Handle) (ls : List Label) :
    EveryStep step (init slave) Respects ls ↔
      EveryStep step (init slave) SparesClosed ls := by
  refine everyStep_congr ls fun h hreach l => ?_
  have hfixed : h.Fixed :=
    hreach.invariant Fixed (fixed_init slave) fun _ _ _ ht _ hs =>
      fixed_step ht hs
  cases l with
  | system source handle name type session msg =>
      exact respects_system hfixed
  | name name handle => exact respects_name hfixed
  | link accept fd id | data fd first received | close fd =>
      exact ⟨fun _ => trivial, fun _ _ _ => trivial⟩

/-- The harbor 2 sends a wrong id, and then a message to it is written to the
socket 7, which was closed. -/
theorem written_after_close :
    ∃ h m, exec step (init 0x01000001#32)
        [.link false 7 2, .data 7 9 .header,
          .system 0x01000009#32 0x02000005#32 [] 10#8 0#32 [1]] = .next h ∧
      h.out = [.handshake 7, .close 7, .remote 7 m] ∧
      ¬ EveryStep step (init 0x01000001#32) Respects
        [.link false 7 2, .data 7 9 .header,
          .system 0x01000009#32 0x02000005#32 [] 10#8 0#32 [1]] := by
  refine ⟨_, _, rfl, rfl, fun hall => ?_⟩
  have hsent := (hall [.link false 7 2, .data 7 9 .header] _ [] _ rfl rfl _ rfl
    0x02000005#32 rfl rfl (by decide)).1
  exact absurd (List.mem_singleton.mp hsent) (by rintro ⟨⟩)

end State

end SkynetServer.Harbor
