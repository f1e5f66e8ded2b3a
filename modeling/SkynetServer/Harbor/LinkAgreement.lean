import SkynetServer.Harbor.Link
import SkynetServer.Support.Integers

/-!
# Both ends of a link agree on short messages

A receiver that has read a part of a stream of packages expects the rest of
it.  Reading a chunk of the stream forwards the messages that it completes,
and the receiver then expects what is behind the chunk.  A message which is
forwarded has a length of three bytes, so a longer one never is.
-/

namespace SkynetServer.HarborLink

open Harbor

/-! ## Numbers in bytes -/

theorem getLsbD_byteMask (i : ℕ) : (0xff#32).getLsbD i = decide (i < 8) := by
  rcases Nat.lt_or_ge i 32 with hlt | hge
  · revert i
    decide
  · rw [BitVec.getLsbD_of_ge _ _ hge, decide_eq_false (by omega)]

theorem getLsbD_handleMask (i : ℕ) :
    handleMask.getLsbD i = decide (i < 24) := by
  rcases Nat.lt_or_ge i 32 with hlt | hge
  · revert i
    decide
  · rw [BitVec.getLsbD_of_ge _ _ hge, decide_eq_false (by omega)]

theorem fromBigendian_toBigendian (n : BitVec 32) :
    fromBigendian ⟨((n >>> 24) &&& 0xff#32).setWidth 8⟩
      ⟨((n >>> 16) &&& 0xff#32).setWidth 8⟩
      ⟨((n >>> 8) &&& 0xff#32).setWidth 8⟩
      ⟨(n &&& 0xff#32).setWidth 8⟩ = n := by
  apply BitVec.eq_of_getLsbD_eq
  intro i hi
  simp only [fromBigendian, BitVec.getLsbD_or, BitVec.getLsbD_shiftLeft,
    BitVec.getLsbD_setWidth, BitVec.getLsbD_and, BitVec.getLsbD_ushiftRight,
    getLsbD_byteMask]
  grind

theorem toNat_byte (n : BitVec 32) :
    ((n &&& 0xff#32).setWidth 8).toNat = n.toNat % 2 ^ 8 := by
  have hmask : (0xff#32).toNat = 2 ^ 8 - 1 := rfl
  rw [BitVec.toNat_setWidth, BitVec.toNat_and, hmask,
    Nat.and_two_pow_sub_one_eq_mod, Nat.mod_mod]

/-- The first of the four bytes of a short length is 0. -/
theorem toBigendian_short {n : ℕ} (h : n < 2 ^ 24) :
    ∃ b₁ b₂ b₃, toBigendian (BitVec.ofNat 32 n) = [0, b₁, b₂, b₃] ∧
      packageLength b₁ b₂ b₃ = n := by
  have hn : (BitVec.ofNat 32 n).toNat = n :=
    BitVec.toNat_ofNat n 32 ▸ Nat.mod_eq_of_lt (by omega)
  have hfirst :
      (⟨((BitVec.ofNat 32 n >>> 24) &&& 0xff#32).setWidth 8⟩ : UInt8) = 0 := by
    rw [← UInt8.toNat_inj]
    change BitVec.toNat _ = 0
    rw [toNat_byte, BitVec.toNat_ushiftRight, hn, Nat.shiftRight_eq_div_pow,
      Nat.div_eq_of_lt h, Nat.zero_mod]
  refine ⟨_, _, _, by rw [toBigendian, hfirst], ?_⟩
  rw [packageLength_eq]
  change BitVec.toNat _ * 2 ^ 16 + BitVec.toNat _ * 2 ^ 8 +
    BitVec.toNat _ = n
  rw [toNat_byte, toNat_byte, toNat_byte, BitVec.toNat_ushiftRight,
    BitVec.toNat_ushiftRight, hn, Nat.shiftRight_eq_div_pow,
    Nat.shiftRight_eq_div_pow]
  omega

/-! ## Packages -/

theorem messageToHeader_headerToMessage (header : RemoteMessageHeader) :
    messageToHeader (headerToMessage header) = some header := by
  simp only [headerToMessage, toBigendian, List.cons_append, List.nil_append,
    messageToHeader, fromBigendian_toBigendian]

@[simp] theorem length_headerToMessage (header : RemoteMessageHeader) :
    (headerToMessage header).length = headerCookieLength := rfl

/-- The package of a message behind its length. -/
def RemoteMessage.body (m : RemoteMessage) : List UInt8 :=
  m.message ++ headerToMessage m.cookie

/-- The package of a message. -/
def RemoteMessage.package (m : RemoteMessage) : List UInt8 :=
  toBigendian (BitVec.ofNat 32 m.body.length) ++ m.body

/-- The length of the package fits in three bytes. -/
def RemoteMessage.Short (m : RemoteMessage) : Prop :=
  m.message.length + headerCookieLength < 2 ^ 24

/-- The message that is to be forwarded. -/
def RemoteMessage.received (id : BitVec 8) (m : RemoteMessage) :
    LocalMessage where
  source := m.source
  destination := (m.destination &&& handleMask) ||| typeBits id
  type := m.type
  session := m.session
  msg := m.message

section Package

variable {m : RemoteMessage}

theorem RemoteMessage.length_body (m : RemoteMessage) :
    m.body.length = m.message.length + headerCookieLength := by
  rw [RemoteMessage.body, List.length_append, length_headerToMessage]

theorem typeOf_cookie (m : RemoteMessage) :
    typeOf m.cookie.destination = m.type := by
  apply BitVec.eq_of_getLsbD_eq
  intro i hi
  simp only [RemoteMessage.cookie, typeOf, typeBits, BitVec.getLsbD_or,
    BitVec.getLsbD_shiftLeft, BitVec.getLsbD_setWidth, BitVec.getLsbD_and,
    BitVec.getLsbD_ushiftRight, getLsbD_handleMask]
  grind

theorem cookie_and_mask (m : RemoteMessage) :
    m.cookie.destination &&& handleMask = m.destination &&& handleMask := by
  apply BitVec.eq_of_getLsbD_eq
  intro i hi
  simp only [RemoteMessage.cookie, typeBits, BitVec.getLsbD_or,
    BitVec.getLsbD_shiftLeft, BitVec.getLsbD_setWidth, BitVec.getLsbD_and,
    getLsbD_handleMask]
  grind

theorem forward_body (id : BitVec 8) (m : RemoteMessage) :
    forwardLocalMesssage id m.body = some (m.received id) := by
  have hlen : m.body.length - headerCookieLength = m.message.length := by
    rw [m.length_body, Nat.add_sub_cancel]
  have hnot : ¬ m.body.length < headerCookieLength := by
    rw [m.length_body]
    exact Nat.not_lt.mpr (Nat.le_add_left _ _)
  have hdrop : m.body.drop m.message.length = headerToMessage m.cookie :=
    List.drop_left
  have htake : m.body.take m.message.length = m.message := List.take_left
  rw [forwardLocalMesssage, if_neg hnot]
  simp only [hlen, hdrop, htake, messageToHeader_headerToMessage,
    typeOf_cookie, cookie_and_mask]
  rfl

/-- A message whose package has a length that is an `int` is written whole. -/
theorem remoteSendHandle_eq
    (hsz : m.sz = m.message.length)
    (hint : m.message.length + headerCookieLength + 4 < 2 ^ 31) :
    remoteSendHandle m = some m.package := by
  have hbody := m.length_body
  have hlen : (BitVec.ofNat 32 (m.sz + headerCookieLength + 4)).toInt =
      (m.sz + headerCookieLength + 4 : ℕ) :=
    Integers.toInt_ofNat_of_lt (by omega)
  have hwhole : toBigendian (BitVec.ofNat 32 (m.sz + headerCookieLength)) ++
      m.message.take m.sz ++ headerToMessage m.cookie = m.package := by
    rw [hsz, List.take_length, RemoteMessage.package, hbody,
      RemoteMessage.body, List.append_assoc]
  have hpackage : m.package.length = m.sz + headerCookieLength + 4 := by
    rw [RemoteMessage.package, List.length_append, hbody, hsz]
    exact Nat.add_comm _ _
  rw [remoteSendHandle, sendRemote, if_neg (by omega), hwhole, skynetSocketSend, hlen,
    if_neg (by omega), Int.toNat_natCast,
    List.take_of_length_le (by omega)]

/-- The high byte of the size holds the type. -/
theorem filterSz_eq (a : Send) (h : a.data.length < 2 ^ messageTypeShift) :
    a.filterSz = (a.type.setWidth 8).toNat * 2 ^ messageTypeShift +
      a.data.length := by
  have htype : (a.type &&& 0xff#32).toNat = (a.type.setWidth 8).toNat := by
    have hmask : (0xff#32).toNat = 2 ^ 8 - 1 := rfl
    rw [BitVec.toNat_and, hmask, Nat.and_two_pow_sub_one_eq_mod,
      BitVec.toNat_setWidth]
  rw [Send.filterSz, htype, Nat.or_comm,
    ← Nat.shiftLeft_add_eq_or_of_lt h, Nat.shiftLeft_eq]

/-- What `skynet_send` passes on. -/
theorem skynetSend_spec
    {id : BitVec 8} {a : Send} (h : skynetSend id a = some m) :
    m.sz = m.message.length ∧ m.message = a.data ∧
      m.destination = a.destination ∧ m.type = a.type.setWidth 8 ∧
      m.source = a.origin ∧ m.session = a.filterSession := by
  simp only [skynetSend] at h
  split_ifs at h with hmask hzero hremote htype
  cases h
  have hlen : a.data.length < 2 ^ messageTypeShift := by
    have hmod := not_not.mp hmask
    rw [messageTypeMask, Nat.and_two_pow_sub_one_eq_mod] at hmod
    exact hmod ▸ Nat.mod_lt _ (Nat.two_pow_pos _)
  have hsz := filterSz_eq a hlen
  refine ⟨?_, rfl, rfl, ?_, rfl, rfl⟩
  · change a.filterSz &&& messageTypeMask = a.data.length
    rw [messageTypeMask, Nat.and_two_pow_sub_one_eq_mod, hsz,
      Nat.add_comm, Nat.add_mul_mod_self_right, Nat.mod_eq_of_lt hlen]
  · change BitVec.ofNat 8 (a.filterSz >>> messageTypeShift) = _
    rw [Nat.shiftRight_eq_div_pow, hsz, Nat.add_comm,
      Nat.add_mul_div_right _ _ (Nat.two_pow_pos _), Nat.div_eq_of_lt hlen,
      Nat.zero_add, BitVec.ofNat_toNat, BitVec.setWidth_eq]

end Package

/-! ## Receiving short messages -/

/-- The bytes of the messages. -/
def stream (ms : List RemoteMessage) : List UInt8 :=
  ms.flatMap RemoteMessage.package

/-- The receiver has read a part of a stream and `rest` is what is left of
it, with the messages that were not forwarded yet. -/
def Receiver.Expects (s : Receiver) (rest : List UInt8)
    (ms : List RemoteMessage) : Prop :=
  (s.status = .header ∧ s.size ++ rest = stream ms) ∨
    s.status = .content ∧ s.size = [] ∧ s.recvBuffer.length < s.length ∧
      ∃ m ms', ms = m :: ms' ∧ s.length = m.body.length ∧
        s.recvBuffer ++ rest = m.body ++ stream ms'

/-- The chunk completes some of the messages. -/
def Receiver.Forwards (id : BitVec 8) (remote : ℕ) (s : Receiver)
    (chunk rest : List UInt8) (ms : List RemoteMessage) : Prop :=
  ∃ s' done todo,
    s.pushSocketData id remote chunk =
        some (s', done.map (RemoteMessage.received id)) ∧
      ms = done ++ todo ∧ s'.Expects rest todo

section Receiving

variable {id : BitVec 8} {remote : ℕ} {s : Receiver}
  {chunk rest : List UInt8} {m : RemoteMessage} {ms : List RemoteMessage}

/-- In the middle of a package. -/
theorem forwards_content
    (hnext : ∀ {s : Receiver} {chunk}, s.status = .header →
      s.size ++ (chunk ++ rest) = stream ms →
        s.Forwards id remote chunk rest ms)
    (hstatus : s.status = .content) (hsize : s.size = [])
    (hlt : s.recvBuffer.length < s.length) (hlen : s.length = m.body.length)
    (hbytes : s.recvBuffer ++ (chunk ++ rest) = m.body ++ stream ms) :
    s.Forwards id remote chunk rest (m :: ms) := by
  by_cases hshort : chunk.length < s.length - s.recvBuffer.length
  · refine ⟨_, [], m :: ms,
      Receiver.pushSocketData_readContent hstatus hshort, rfl, .inr ?_⟩
    refine ⟨hstatus, hsize, ?_, m, ms, rfl, hlen, ?_⟩
    · change (s.recvBuffer ++ chunk).length < s.length
      rw [List.length_append]
      omega
    · change s.recvBuffer ++ chunk ++ rest = _
      rw [List.append_assoc, hbytes]
  · obtain ⟨tail, hchunk, htail⟩ :
        ∃ tail, s.recvBuffer ++ chunk = m.body ++ tail ∧
          tail ++ rest = stream ms := by
      rw [← List.append_assoc] at hbytes
      rcases List.append_eq_append_iff.mp hbytes with
        ⟨tail, hbody, hrest⟩ | ⟨tail, hchunk, htail⟩
      · have htail : tail = [] := by
          have h := congrArg List.length hbody
          rw [List.length_append, List.length_append] at h
          exact List.eq_nil_of_length_eq_zero (by omega)
        subst htail
        exact ⟨[], by simpa using hbody.symm, by simpa using hrest⟩
      · exact ⟨tail, hchunk, htail.symm⟩
    have hend : s.pushSocketData id remote chunk =
        if tail.length = 0 then some (s.endContent, [m.received id])
        else Receiver.andThen (m.received id)
          (s.endContent.pushSocketData id remote tail) :=
      Receiver.pushSocketData_endContent hstatus hchunk hlen
        (forward_body id m) hshort
    by_cases hnil : tail.length = 0
    · rw [if_pos hnil] at hend
      refine ⟨_, [m], ms, hend, rfl, .inl ⟨rfl, ?_⟩⟩
      rw [List.eq_nil_of_length_eq_zero hnil] at htail
      change s.size ++ rest = stream ms
      rw [hsize]
      exact htail
    · rw [if_neg hnil] at hend
      have hheader : s.endContent.size ++ (tail ++ rest) = stream ms := by
        change s.size ++ _ = _
        rw [hsize]
        exact htail
      obtain ⟨s', done, todo, hpush, rfl, hexpects⟩ := hnext rfl hheader
      refine ⟨s', m :: done, todo, ?_, rfl, hexpects⟩
      rw [hend, hpush]
      rfl

/-- The chunk does not complete the length of a package. -/
theorem forwards_size
    (hstatus : s.status = .header) (hshort : chunk.length < 4 - s.size.length)
    (hbytes : s.size ++ (chunk ++ rest) = stream ms) :
    s.Forwards id remote chunk rest ms := by
  refine ⟨_, [], ms, Receiver.pushSocketData_readSize hstatus hshort, rfl,
    .inl ⟨hstatus, ?_⟩⟩
  change s.size ++ chunk ++ rest = _
  rw [List.append_assoc, hbytes]

/-- A list that starts with four given elements, cut behind them. -/
theorem exists_tail_of_four
    {α : Type*} {xs ys zs : List α} {a b c d : α}
    (hlen : 4 ≤ xs.length) (h : xs ++ ys = a :: b :: c :: d :: zs) :
    ∃ tail, xs = a :: b :: c :: d :: tail ∧ tail ++ ys = zs := by
  match xs, hlen with
  | x₁ :: x₂ :: x₃ :: x₄ :: tail, _ =>
    simp only [List.cons_append, List.cons.injEq] at h
    obtain ⟨rfl, rfl, rfl, rfl, h⟩ := h
    exact ⟨tail, rfl, h⟩

/-- Before a package or in its length.  The induction is on the messages: a
chunk can complete any number of them. -/
theorem forwards_header
    (hms : ∀ m ∈ ms, m.Short) (hstatus : s.status = .header)
    (hbytes : s.size ++ (chunk ++ rest) = stream ms) :
    s.Forwards id remote chunk rest ms := by
  induction ms generalizing s chunk with
  | nil =>
      have hsize := s.size_lt
      have h := congrArg List.length hbytes
      rw [List.length_append, List.length_append] at h
      change _ = 0 at h
      exact forwards_size hstatus (by omega) hbytes
  | cons m ms ih =>
      have hsize := s.size_lt
      by_cases hshort : chunk.length < 4 - s.size.length
      · exact forwards_size hstatus hshort hbytes
      · obtain ⟨hm, hms⟩ := List.forall_mem_cons.mp hms
        have hbody : m.body.length < 2 ^ 24 := m.length_body ▸ hm
        obtain ⟨b₁, b₂, b₃, hfirst, hnumber⟩ := toBigendian_short hbody
        have hstream : stream (m :: ms) =
            0 :: b₁ :: b₂ :: b₃ :: (m.body ++ stream ms) := by
          rw [stream, List.flatMap_cons, RemoteMessage.package, hfirst,
            List.append_assoc]
          rfl
        rw [← List.append_assoc, hstream] at hbytes
        obtain ⟨tail, hchunk, htail⟩ := exists_tail_of_four
          (by rw [List.length_append]; omega) hbytes
        have hpos : 0 < m.body.length :=
          m.length_body ▸ Nat.lt_of_lt_of_le (by decide : 0 < headerCookieLength)
            (Nat.le_add_left _ _)
        have hlt : (Receiver.startContent b₁ b₂ b₃).recvBuffer.length <
            (Receiver.startContent b₁ b₂ b₃).length := by
          change 0 < packageLength b₁ b₂ b₃
          rw [hnumber]
          exact hpos
        have hstart : s.pushSocketData id remote chunk =
            if tail.length = 0 then
              some (Receiver.startContent b₁ b₂ b₃, [])
            else (Receiver.startContent b₁ b₂ b₃).pushSocketData id remote
              tail :=
          Receiver.pushSocketData_startContent hstatus hchunk hshort
        by_cases hnil : tail.length = 0
        · rw [if_pos hnil] at hstart
          rw [List.eq_nil_of_length_eq_zero hnil] at htail
          exact ⟨_, [], m :: ms, hstart, rfl, .inr ⟨rfl, rfl, hlt, m, ms, rfl,
            hnumber, htail⟩⟩
        · rw [if_neg hnil] at hstart
          have hcontent : (Receiver.startContent b₁ b₂ b₃).Forwards id remote
              tail rest (m :: ms) :=
            forwards_content (ih hms) rfl rfl hlt hnumber htail
          obtain ⟨s', done, todo, hpush, hdone, hexpects⟩ := hcontent
          exact ⟨s', done, todo, hstart.trans hpush, hdone, hexpects⟩

theorem forwards_of_expects
    (hms : ∀ m ∈ ms, m.Short) (h : s.Expects (chunk ++ rest) ms) :
    s.Forwards id remote chunk rest ms := by
  rcases h with ⟨hstatus, hbytes⟩ |
    ⟨hstatus, hsize, hlt, m, ms', rfl, hlen, hbytes⟩
  · exact forwards_header hms hstatus hbytes
  · exact forwards_content
      (forwards_header (List.forall_mem_cons.mp hms).2) hstatus hsize hlt hlen
      hbytes

/-- A receiver that has read all of a stream has forwarded all of it. -/
theorem expects_nil (h : s.Expects [] ms) :
    ms = [] ∧ s.status ≠ .down := by
  rcases h with ⟨hstatus, hbytes⟩ | ⟨-, -, hlt, m, ms', rfl, hlen, hbytes⟩
  · refine ⟨?_, by rw [hstatus]; decide⟩
    cases ms with
    | nil => rfl
    | cons m ms =>
        have hsize := s.size_lt
        have h := congrArg List.length hbytes
        rw [List.append_nil, stream, List.flatMap_cons,
          RemoteMessage.package, List.length_append,
          List.length_append] at h
        change _ = 4 + _ + _ at h
        omega
  · have h := congrArg List.length hbytes
    rw [List.append_nil, List.length_append] at h
    omega

/-- Short messages are forwarded, however their bytes are cut. -/
theorem feed_short
    {chunks : List (List UInt8)} (hms : ∀ m ∈ ms, m.Short)
    (h : s.Expects chunks.flatten ms) :
    ∃ s', s.feed id remote chunks =
        some (s', ms.map (RemoteMessage.received id)) ∧
      s'.status ≠ .down := by
  induction chunks generalizing s ms with
  | nil =>
      obtain ⟨rfl, hstatus⟩ := expects_nil h
      exact ⟨s, rfl, hstatus⟩
  | cons chunk chunks ih =>
      rw [List.flatten_cons] at h
      have hforwards : s.Forwards id remote chunk chunks.flatten ms :=
        forwards_of_expects hms h
      obtain ⟨s', done, todo, hpush, rfl, hexpects⟩ := hforwards
      obtain ⟨s'', hfeed, hstatus⟩ := ih
        (fun m hm => hms m (List.mem_append_right done hm)) hexpects
      refine ⟨s'', ?_, hstatus⟩
      rw [Receiver.feed, hpush]
      dsimp only
      rw [hfeed, List.map_append]
      rfl

end Receiving

/-! ## What is forwarded is short -/

section Lengths

variable {id : BitVec 8} {remote : ℕ}

theorem length_forwarded
    {bytes : List UInt8} {m : LocalMessage}
    (h : forwardLocalMesssage id bytes = some m) :
    m.msg.length + headerCookieLength = bytes.length := by
  unfold forwardLocalMesssage at h
  split at h
  · cases h
  · rename_i hlen
    dsimp only at h
    split at h
    · cases h
    · cases h
      dsimp only
      rw [List.length_take]
      omega

theorem short_of_content
    {s : Receiver} {buffer : List UInt8} {m : LocalMessage}
    (h : forwardLocalMesssage id (s.recvBuffer ++
      buffer.take (s.length - s.recvBuffer.length)) = some m) :
    m.msg.length + headerCookieLength < 2 ^ 24 := by
  have hlt := s.length_lt
  have hle := s.recvBuffer_le
  rw [length_forwarded h, List.length_append, List.length_take]
  omega

theorem short_of_pushSocketData
    {s s' : Receiver} {buffer : List UInt8} {out : List LocalMessage}
    (h : s.pushSocketData id remote buffer = some (s', out)) :
    ∀ m ∈ out, m.msg.length + headerCookieLength < 2 ^ 24 := by
  fun_induction Receiver.pushSocketData id remote s buffer
    generalizing s' out with
  | case3 s hstatus remoteId buffer hid ih => exact ih h
  | case7 =>
      rename_i ih
      exact ih h
  | case11 s buffer hstatus need hlen m hm =>
      cases h
      exact List.forall_mem_singleton.mpr (short_of_content hm)
  | case12 s buffer hstatus need hlen m hm =>
      rename_i ih
      rw [Receiver.andThen, Option.map_eq_some_iff] at h
      obtain ⟨⟨s'', out'⟩, hpush, heq⟩ := h
      cases heq
      exact List.forall_mem_cons.mpr ⟨short_of_content hm, ih hpush⟩
  | case1 | case8 | case10 => cases h
  | case2 | case4 | case5 | case6 | case9 | case13 | case14 =>
      cases h
      exact List.forall_mem_nil _

theorem short_of_feed
    {s s' : Receiver} {chunks : List (List UInt8)} {out : List LocalMessage}
    (h : s.feed id remote chunks = some (s', out)) :
    ∀ m ∈ out, m.msg.length + headerCookieLength < 2 ^ 24 := by
  induction chunks generalizing s out with
  | nil =>
      cases h
      exact List.forall_mem_nil _
  | cons chunk chunks ih =>
      rw [Receiver.feed] at h
      split at h
      · cases h
      · rename_i s₁ ms hpush
        rw [Option.map_eq_some_iff] at h
        obtain ⟨⟨s₂, out'⟩, hfeed, heq⟩ := h
        cases heq
        intro m hm
        rcases List.mem_append.mp hm with hm | hm
        · exact short_of_pushSocketData hpush m hm
        · exact ih hfeed m hm

end Lengths

/-! ## The two ends -/

/-- The message that the peer with the id is to forward for a call of
`skynet_send`. -/
def Send.forwarded (id : BitVec 8) (a : Send) : LocalMessage where
  source := a.origin
  destination := (a.destination &&& handleMask) ||| typeBits id
  type := a.type.setWidth 8
  session := a.filterSession
  msg := a.data

/-- A call of `skynet_send` in the harbor `sender`, whose message is written
to the link as these bytes. -/
def Written (sender : BitVec 8) (a : Send) (bytes : List UInt8) : Prop :=
  ∃ m, skynetSend sender a = some m ∧ remoteSendHandle m = some bytes

theorem received_eq
    {sender id : BitVec 8} {a : Send} {m : RemoteMessage}
    (h : skynetSend sender a = some m) : m.received id = a.forwarded id := by
  obtain ⟨-, hmsg, hdest, htype, hsource, hsession⟩ := skynetSend_spec h
  rw [RemoteMessage.received, hmsg, hdest, htype, hsource, hsession]
  rfl

/-- The messages of calls that are short. -/
theorem exists_stream
    (id : BitVec 8) {sender : BitVec 8} {sends : List Send} {bytes : List (List UInt8)}
    (hwritten : List.Forall₂ (Written sender) sends bytes)
    (hshort : ∀ a ∈ sends, a.data.length + headerCookieLength < 2 ^ 24) :
    ∃ ms : List RemoteMessage, (∀ m ∈ ms, m.Short) ∧
      bytes.flatten = stream ms ∧
      ms.map (RemoteMessage.received id) = sends.map (Send.forwarded id) := by
  induction hwritten with
  | nil => exact ⟨[], List.forall_mem_nil _, rfl, rfl⟩
  | @cons a bs sends bytes hfirst _ ih =>
      obtain ⟨ha, hsends⟩ := List.forall_mem_cons.mp hshort
      obtain ⟨ms, hms, hbytes, hmap⟩ := ih hsends
      obtain ⟨m, hsend, hbs⟩ := hfirst
      obtain ⟨hsz, hmsg, -⟩ := skynetSend_spec hsend
      have hm : m.Short := by
        rw [RemoteMessage.Short, hmsg]
        exact ha
      have hpackage := remoteSendHandle_eq hsz
        (by unfold RemoteMessage.Short at hm; omega)
      rw [hbs] at hpackage
      cases hpackage
      refine ⟨m :: ms, List.forall_mem_cons.mpr ⟨hm, hms⟩, ?_, ?_⟩
      · rw [List.flatten_cons, hbytes]
        rfl
      · rw [List.map_cons, List.map_cons, hmap, received_eq hsend]

/-- The messages written to a link are all forwarded, and the link stays up,
if and only if the lengths of their packages fit in three bytes; their bytes
arrive in any chunks. -/
theorem messages_forwarded_iff
    {sender id : BitVec 8} {remote : ℕ} {sends : List Send}
    {bytes chunks : List (List UInt8)} {s : Receiver}
    (hwritten : List.Forall₂ (Written sender) sends bytes)
    (hchunks : chunks.flatten = bytes.flatten)
    (hstatus : s.status = .header) (hsize : s.size = []) :
    (∃ s', s.feed id remote chunks =
        some (s', sends.map (Send.forwarded id)) ∧ s'.status ≠ .down) ↔
      ∀ a ∈ sends, a.data.length + headerCookieLength < 2 ^ 24 := by
  constructor
  · rintro ⟨s', hfeed, -⟩ a ha
    exact short_of_feed hfeed _ (List.mem_map_of_mem ha)
  · intro hshort
    obtain ⟨ms, hms, hbytes, hmap⟩ := exists_stream id hwritten hshort
    rw [← hmap]
    apply feed_short hms
    left
    refine ⟨hstatus, ?_⟩
    rw [hsize, hchunks, hbytes]
    rfl

/-- A call with the data, from one harbor to the next. -/
def sendOf (data : List UInt8) : Send where
  handle := 0x01000008#32
  newSession := 5#32
  source := 0#32
  destination := 0x02000009#32
  type := 0x2000a#32
  session := 0#32
  data := data

theorem written_sendOf
    (data : List UInt8) (h : data.length + headerCookieLength + 4 < 2 ^ 31) :
    ∃ bytes, Written 1#8 (sendOf data) bytes := by
  have hmask : data.length &&& messageTypeMask = data.length := by
    rw [messageTypeMask, Nat.and_two_pow_sub_one_eq_mod]
    unfold messageTypeShift
    omega
  have hlen : (sendOf data).data.length < 2 ^ messageTypeShift := by
    change data.length < 2 ^ messageTypeShift
    unfold messageTypeShift
    omega
  have htype : BitVec.ofNat 8 ((sendOf data).filterSz >>> messageTypeShift) =
      10#8 := by
    rw [Nat.shiftRight_eq_div_pow, filterSz_eq _ hlen, Nat.add_comm,
      Nat.add_mul_div_right _ _ (Nat.two_pow_pos _), Nat.div_eq_of_lt hlen,
      Nat.zero_add]
    change BitVec.ofNat 8 (BitVec.setWidth 8 0x2000a#32).toNat = 10#8
    decide
  obtain ⟨m, hm⟩ : ∃ m, skynetSend 1#8 (sendOf data) = some m := by
    have hkeep : ¬ (sendOf data).data.length &&& messageTypeMask ≠
        (sendOf data).data.length := not_not.mpr hmask
    have hdest : ¬ (sendOf data).destination = 0 := by
      change ¬ 0x02000009#32 = 0
      decide
    have hremote : isRemote 1#8 (sendOf data).destination = true := by
      change isRemote 1#8 0x02000009#32 = true
      decide
    rw [skynetSend, if_neg hkeep, if_neg hdest, if_pos hremote]
    simp only [htype]
    exact ⟨_, if_neg (by decide)⟩
  obtain ⟨hsz, hmsg, -⟩ := skynetSend_spec hm
  exact ⟨_, m, hm, remoteSendHandle_eq hsz (by rw [hmsg]; exact h)⟩

/-- Two messages whose bytes arrive one by one. -/
theorem two_messages_forwarded :
    ∃ bytes bytes' s', Written 1#8 (sendOf [1, 2, 3]) bytes ∧
      Written 1#8 (sendOf []) bytes' ∧
      Receiver.waiting.feed 2#8 1 ((bytes ++ bytes').map fun b => [b]) =
        some (s', [(sendOf [1, 2, 3]).forwarded 2#8,
          (sendOf []).forwarded 2#8]) ∧ s'.status ≠ .down := by
  obtain ⟨bytes, hbytes⟩ := written_sendOf [1, 2, 3] (by decide)
  obtain ⟨bytes', hbytes'⟩ := written_sendOf [] (by decide)
  have hchunks : ((bytes ++ bytes').map fun b => [b]).flatten =
      [bytes, bytes'].flatten := by
    rw [← List.flatMap_def]
    simp
  have hfeed : ∃ s', Receiver.waiting.feed 2#8 1
        ((bytes ++ bytes').map fun b => [b]) =
      some (s', [sendOf [1, 2, 3], sendOf []].map (Send.forwarded 2#8)) ∧
        s'.status ≠ .down :=
    (messages_forwarded_iff (.cons hbytes (.cons hbytes' .nil)) hchunks rfl
      rfl).mpr (by decide)
  obtain ⟨s', hfeed, hstatus⟩ := hfeed
  exact ⟨bytes, bytes', s', hbytes, hbytes', hfeed, hstatus⟩

theorem not_forwarded
    {id : BitVec 8} {remote : ℕ} {s : Receiver} {chunks : List (List UInt8)}
    {a : Send} (h : ¬ a.data.length + headerCookieLength < 2 ^ 24) :
    ¬ ∃ s', s.feed id remote chunks = some (s', [a.forwarded id]) ∧
      s'.status ≠ .down := by
  rintro ⟨s', hfeed, -⟩
  exact h (short_of_feed hfeed _ List.mem_cons_self)

/-- A message of 16 megabytes less the header is written but not forwarded. -/
theorem long_message_not_forwarded :
    ∃ data bytes, data.length = 16777204 ∧ Written 1#8 (sendOf data) bytes ∧
      ¬ ∃ s', Receiver.waiting.feed 2#8 1 [bytes] =
        some (s', [(sendOf data).forwarded 2#8]) ∧ s'.status ≠ .down := by
  obtain ⟨data, hlen⟩ : ∃ data : List UInt8, data.length = 16777204 :=
    ⟨List.replicate 16777204 0, List.length_replicate⟩
  obtain ⟨bytes, hbytes⟩ := written_sendOf data (by rw [hlen]; decide)
  refine ⟨data, bytes, hlen, hbytes, not_forwarded ?_⟩
  change ¬ data.length + headerCookieLength < 2 ^ 24
  rw [hlen]
  decide

end SkynetServer.HarborLink
