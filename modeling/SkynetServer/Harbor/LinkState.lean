import SkynetServer.Harbor.Delivery
import SkynetServer.Harbor.LinkAgreement

/-!
# The harbor and the bytes on its links

The state of the harbor keeps of a link what it sends and its status.  A
message counts as sent there exactly when the bytes of its package are written
to the link, and the status after a chunk is the one of the receiver that
reads its bytes.
-/

namespace SkynetServer.HarborLink

open Harbor

section Sending

variable {h : State}

/-- The package that `send_remote` makes. -/
def packageOf (m : HarborMsg) : List UInt8 :=
  toBigendian (BitVec.ofNat 32 (m.buffer.length + headerCookieLength)) ++
    m.buffer ++ headerToMessage m.header

theorem length_packageOf (m : HarborMsg) :
    (packageOf m).length = m.buffer.length + headerCookieLength + 4 := by
  rw [packageOf, List.length_append, List.length_append,
    length_headerToMessage]
  change 4 + m.buffer.length + headerCookieLength = _
  omega

/-- A buffer is written whole when its size is an `int`. -/
theorem skynetSocketSend_eq_some_iff (buffer : List UInt8) :
    skynetSocketSend buffer buffer.length = some buffer ↔
      (BitVec.ofNat 32 buffer.length).toInt = buffer.length := by
  have hle : (BitVec.ofNat 32 buffer.length).toInt ≤ buffer.length := by
    have hmod := Nat.mod_le buffer.length (2 ^ 32)
    rw [BitVec.toInt_eq_toNat_cond, BitVec.toNat_ofNat]
    split_ifs <;> omega
  rw [skynetSocketSend]
  generalize (BitVec.ofNat 32 buffer.length).toInt = n at hle
  split_ifs with hneg
  · exact iff_of_false (by simp) (by omega)
  · constructor
    · intro hwhole
      have hlen := congrArg List.length (Option.some.inj hwhole)
      rw [List.length_take] at hlen
      omega
    · intro hn
      rw [hn, Int.toNat_natCast, List.take_length]

/-- `send_remote`: what counts as sent is what is written. -/
theorem sent_iff_written (fd : ℤ) (m : HarborMsg) :
    (State.sendRemote fd m).filterMap Output.sent = [⟨fd, m⟩] ↔
      sendRemote m.buffer m.buffer.length m.header = some (packageOf m) := by
  have hsocket := skynetSocketSend_eq_some_iff (packageOf m)
  rw [length_packageOf] at hsocket
  unfold headerCookieLength at *
  rw [State.sendRemote, sendRemote, List.take_length]
  unfold headerCookieLength
  split_ifs with hlarge
  · exact iff_of_false (by simp) (by simp)
  · refine Iff.trans ?_ hsocket.symm
    change [Output.remote fd m].filterMap Output.sent = _ ↔
      (BitVec.ofNat 32 (m.buffer.length + 16)).toInt = _
    rw [List.filterMap_cons, List.filterMap_nil, Output.sent]
    split_ifs with hint
    · exact iff_of_true rfl hint
    · exact iff_of_false (by simp) hint

/-- `remote_send_handle` on a link that is up. -/
theorem remoteSendHandle_sent_iff
    {m : RemoteMessage} (hsz : m.sz = m.message.length)
    (hremote : harborId m.destination ≠ h.id)
    (hfd : (h.s (harborId m.destination)).fd ≠ 0)
    (hstatus : (h.s (harborId m.destination)).status ≠ .handshake)
    (ticket : ℕ) :
    (h.remoteSendHandle m.source m.destination m.type m.session m.message
        ticket).wire =
        h.wire ++ [⟨(h.s (harborId m.destination)).fd,
          ⟨m.cookie, m.message, ticket⟩⟩] ↔
      remoteSendHandle m = some m.package := by
  have hcookie : (⟨m.source, typeBits m.type |||
      (m.destination &&& handleMask), m.session⟩ : RemoteMessageHeader) =
      m.cookie := by
    rw [RemoteMessage.cookie, BitVec.or_comm]
  have hpackage : m.package =
      packageOf ⟨m.cookie, m.message, ticket⟩ := by
    rw [RemoteMessage.package, m.length_body, RemoteMessage.body, packageOf,
      List.append_assoc]
  have hwritten := sent_iff_written
    (h.s (harborId m.destination)).fd ⟨m.cookie, m.message, ticket⟩
  unfold State.remoteSendHandle
  dsimp only
  rw [if_neg hremote, if_neg (not_or.mpr ⟨hfd, hstatus⟩), hcookie,
    State.wire_emit, List.append_right_inj, remoteSendHandle, hsz, hpackage]
  exact hwritten

end Sending

section Receiving

variable {id : BitVec 8} {remote k : ℕ} {s s' : Receiver}
  {ms : List LocalMessage} {buffer : List UInt8}

theorem pushSocketData_handshake
    (hstatus : s.status = .handshake) {remoteId : UInt8} :
    s.pushSocketData id remote (remoteId :: buffer) =
      if remoteId.toNat ≠ remote then some (s.closeHarbor, [])
      else
        Receiver.pushSocketData id remote { s with status := .header }
          buffer := by
  rw [Receiver.pushSocketData.eq_def]
  split
  · rfl
  all_goals simp_all

theorem pushSocketData_idle
    (hstatus : s.status = .wait ∨ s.status = .down) :
    s.pushSocketData id remote buffer = some (s, []) := by
  rw [Receiver.pushSocketData.eq_def]
  split
  any_goals simp_all

theorem status_pushSocketData
    (hdown : s.status ≠ .down) (hwait : s.status ≠ .wait)
    (hpush : s.pushSocketData id remote buffer = some (s', ms)) :
    s'.status = .header ∨ s'.status = .content ∨ s'.status = .down := by
  fun_induction Receiver.pushSocketData id remote s buffer
    generalizing s' ms with
  | case3 s hstatus remoteId buffer hid ih =>
      exact ih (by simp) (by simp) hpush
  | case7 =>
      rename_i ih
      exact ih (by simp [Receiver.startContent])
        (by simp [Receiver.startContent]) hpush
  | case12 =>
      rename_i ih
      rw [Receiver.andThen, Option.map_eq_some_iff] at hpush
      obtain ⟨r, hpush, heq⟩ := hpush
      cases heq
      exact ih (by simp [Receiver.endContent])
        (by simp [Receiver.endContent]) hpush
  | case1 | case8 | case10 => cases hpush
  | case2 | case5 =>
      cases hpush
      exact .inr (.inr rfl)
  | case4 s buffer hstatus =>
      cases hpush
      exact .inl hstatus
  | case9 s buffer hstatus =>
      cases hpush
      exact .inr (.inl hstatus)
  | case6 =>
      cases hpush
      exact .inr (.inl rfl)
  | case11 =>
      cases hpush
      exact .inl rfl
  | case13 s buffer hstatus => exact absurd hstatus hwait
  | case14 s buffer hstatus => exact absurd hstatus hdown

theorem closeHarbor_status (h : State) (k : ℕ) :
    ((h.closeHarbor k).s k).status = .down := by
  unfold State.closeHarbor
  dsimp only
  rw [State.setSlave_self]

/-- A receiver that goes on has read as much as the slave says. -/
theorem exists_received
    (h : State) (k : ℕ)
    (hstatus : s'.status = .header ∨ s'.status = .content ∨
      s'.status = .down) :
    ∃ received, ((h.receive k received).s k).status = s'.status := by
  rcases hstatus with hstatus | hstatus | hstatus
  · refine ⟨.header, ?_⟩
    rw [hstatus, State.receive, State.setSlave_self]
  · refine ⟨.content, ?_⟩
    rw [hstatus, State.receive, State.setSlave_self]
  · refine ⟨.tooLong, ?_⟩
    rw [hstatus, State.receive, closeHarbor_status]

/-- `push_socket_data`: the receiver that reads the bytes ends in the status
of the slave. -/
theorem pushSocketData_status
    {h : State} {fd : ℤ} {first : UInt8} {rest : List UInt8}
    (hslave : h.slaveOf fd = some k) (hstatus : (h.s k).status = s.status)
    (hpush : s.pushSocketData id k (first :: rest) = some (s', ms)) :
    ∃ received,
      ((h.pushSocketData fd first received).s k).status = s'.status := by
  unfold State.pushSocketData
  simp only [hslave, hstatus]
  cases hs : s.status with
  | handshake =>
      rw [pushSocketData_handshake hs] at hpush
      dsimp only
      split_ifs at hpush ⊢ with hid
      · cases hpush
        exact ⟨.header, closeHarbor_status h k⟩
      · exact exists_received _ k (status_pushSocketData (by simp) (by simp)
          hpush)
  | header | content =>
      exact exists_received h k (status_pushSocketData (by rw [hs]; decide)
        (by rw [hs]; decide) hpush)
  | wait | down =>
      rw [pushSocketData_idle (by rw [hs]; decide)] at hpush
      cases hpush
      exact ⟨.header, hstatus⟩

end Receiving

end SkynetServer.HarborLink
