import SkynetServer.Harbor.FrameStream

/-!
# Frames that are too short for a header

`push_socket_data` compares the length of a frame with `2 ^ 24` only, and
`forward_local_messsage` takes the header from the last twelve bytes of the
frame.  For a shorter frame these begin before its buffer, and the size of the
message is negative.

A peer may send any bytes.  They are all read within their buffers if and only
if no frame that they complete is shorter than a header.
-/

namespace SkynetServer.HarborLink

open Harbor

/-- What is wrong with the bytes of a link. -/
inductive Verdict where
  | fine
  /-- The byte of the handshake, or the first byte of a length. -/
  | refused
  /-- A complete frame without room for a header. -/
  | short
  deriving DecidableEq, Repr

/-- The first mistake in a stream of frames.  A frame of length 0 is complete
when the next byte arrives. -/
def verdict : List UInt8 → Verdict
  | b₀ :: b₁ :: b₂ :: b₃ :: rest =>
    if b₀ ≠ 0 then .refused
    else if rest.length < max 1 (packageLength b₁ b₂ b₃) then .fine
    else if packageLength b₁ b₂ b₃ < headerCookieLength then .short
    else verdict (rest.drop (packageLength b₁ b₂ b₃))
  | _ => .fine
termination_by bytes => bytes.length
decreasing_by
  rw [List.length_drop]
  simp only [List.length_cons]
  omega

/-- The same behind the byte of the handshake. -/
def handshakeVerdict (remote : ℕ) : List UInt8 → Verdict
  | [] => .fine
  | remoteId :: bytes =>
    if remoteId.toNat ≠ remote then .refused else verdict bytes

/-- The same for all bytes of a link. -/
def linkVerdict (remote : ℕ) (handshake : Bool) (bytes : List UInt8) :
    Verdict :=
  if handshake then handshakeVerdict remote bytes else verdict bytes

section Frames

variable {b₀ b₁ b₂ b₃ : UInt8} {bytes rest : List UInt8}

theorem verdict_of_lt (h : bytes.length < 4) : verdict bytes = .fine := by
  rw [verdict.eq_def]
  split
  · simp only [List.length_cons] at h
    omega
  · rfl

theorem verdict_of_ne_zero (h : b₀ ≠ 0) :
    verdict (b₀ :: b₁ :: b₂ :: b₃ :: rest) = .refused := by
  rw [verdict, if_pos h]

theorem verdict_cons :
    verdict (0 :: b₁ :: b₂ :: b₃ :: rest) =
      if rest.length < max 1 (packageLength b₁ b₂ b₃) then .fine
      else if packageLength b₁ b₂ b₃ < headerCookieLength then .short
      else verdict (rest.drop (packageLength b₁ b₂ b₃)) := by
  rw [verdict, if_neg (not_not.mpr rfl)]

/-- `forward_local_messsage` finds a header in a frame that has room for it. -/
theorem forwardLocalMesssage_eq_none
    (id : BitVec 8) {msg : List UInt8} (h : msg.length < 2 ^ 24) :
    forwardLocalMesssage id msg = none ↔ msg.length < headerCookieLength := by
  rcases Nat.lt_or_ge msg.length headerCookieLength with hshort | hlong
  · exact iff_of_true (by rw [forwardLocalMesssage, if_pos hshort]) hshort
  · obtain ⟨m, hbody, -⟩ := Frame.exists_message ⟨msg, hlong, h⟩
    have hforward := forward_body id m
    rw [hbody] at hforward
    rw [hforward]
    exact iff_of_false (Option.some_ne_none _) (Nat.not_lt.mpr hlong)

end Frames

/-! ## One chunk -/

namespace Receiver

/-- The verdict on the bytes that follow in a state. -/
def verdict (s : Receiver) (remote : ℕ) (future : List UInt8) : Verdict :=
  match s.status with
  | .handshake =>
    match future with
    | [] => .fine
    | remoteId :: bytes =>
      if remoteId.toNat ≠ remote then .refused
      else HarborLink.verdict (s.size ++ bytes)
  | .header => HarborLink.verdict (s.size ++ future)
  | .content =>
    if future.length < max 1 (s.length - s.recvBuffer.length) then .fine
    else if s.length < headerCookieLength then .short
    else
      HarborLink.verdict
        (s.size ++ future.drop (s.length - s.recvBuffer.length))
  | .wait => .fine
  | .down => .refused

section Chunk

variable {id : BitVec 8} {remote : ℕ} {s : Receiver}
  {buffer rest : List UInt8}

/-- The result of a chunk bears the verdict out: bytes outside of a buffer are
read for a frame that is too short, and otherwise the verdict does not change
with the chunk. -/
def BearsOut (remote : ℕ) (rest : List UInt8) (v : Verdict) :
    Option (Receiver × List LocalMessage) → Prop
  | none => v = .short
  | some (s, _) => s.verdict remote rest = v

theorem bearsOut_andThen
    {m : LocalMessage} {v : Verdict}
    {r : Option (Receiver × List LocalMessage)} (h : BearsOut remote rest v r) :
    BearsOut remote rest v (andThen m r) := by
  cases r with
  | none | some r => exact h

theorem verdict_readSize
    (hstatus : s.status = .header) (h : buffer.length < 4 - s.size.length) :
    (s.readSize buffer h).verdict remote rest =
      s.verdict remote (buffer ++ rest) := by
  have hnew : (s.readSize buffer h).status = .header := hstatus
  simp only [verdict, hstatus, hnew]
  rw [← List.append_assoc]
  rfl

/-- The four bytes of a length and the bytes behind them. -/
theorem size_append
    {b₀ b₁ b₂ b₃ : UInt8}
    (h : s.size ++ buffer.take (4 - s.size.length) = [b₀, b₁, b₂, b₃]) :
    s.size ++ (buffer ++ rest) = b₀ :: b₁ :: b₂ :: b₃ ::
      (buffer.drop (4 - s.size.length) ++ rest) := by
  calc
    _ = s.size ++ buffer.take (4 - s.size.length) ++
        (buffer.drop (4 - s.size.length) ++ rest) := by
      rw [List.append_assoc, ← List.append_assoc (buffer.take _),
        List.take_append_drop]
    _ = _ := by
      rw [h]
      rfl

/-- The link is closed by a length that does not begin with 0. -/
theorem verdict_refused
    {b₀ b₁ b₂ b₃ : UInt8} (hstatus : s.status = .header)
    (h : s.size ++ buffer.take (4 - s.size.length) = [b₀, b₁, b₂, b₃])
    (hne : b₀ ≠ 0) : .refused = s.verdict remote (buffer ++ rest) := by
  simp only [verdict, hstatus]
  rw [size_append h, verdict_of_ne_zero hne]

/-- The length of a frame is complete. -/
theorem verdict_startContent
    {b₀ b₁ b₂ b₃ : UInt8} (hstatus : s.status = .header)
    (h : s.size ++ buffer.take (4 - s.size.length) = [b₀, b₁, b₂, b₃])
    (hzero : ¬b₀ ≠ 0) :
    (startContent b₁ b₂ b₃).verdict remote
        (buffer.drop (4 - s.size.length) ++ rest) =
      s.verdict remote (buffer ++ rest) := by
  obtain rfl := not_not.mp hzero
  simp only [verdict, hstatus]
  rw [size_append h, verdict_cons]
  rfl

theorem verdict_readContent
    (hstatus : s.status = .content)
    (h : buffer.length < s.length - s.recvBuffer.length) :
    (s.readContent buffer h).verdict remote rest =
      s.verdict remote (buffer ++ rest) := by
  have hnew : (s.readContent buffer h).status = .content := hstatus
  have hneed : s.length - (s.recvBuffer ++ buffer).length =
      s.length - s.recvBuffer.length - buffer.length := by
    rw [List.length_append]
    omega
  have hlt : (buffer ++ rest).length <
        max 1 (s.length - s.recvBuffer.length) ↔
      rest.length < max 1 (s.length - (s.recvBuffer ++ buffer).length) := by
    rw [hneed, List.length_append]
    omega
  have hdrop : (buffer ++ rest).drop (s.length - s.recvBuffer.length) =
      rest.drop (s.length - (s.recvBuffer ++ buffer).length) := by
    rw [hneed, List.drop_append, List.drop_eq_nil_of_le (Nat.le_of_lt h),
      List.nil_append]
  simp only [verdict, hstatus, hnew, hlt]
  rw [hdrop]
  rfl

/-- A frame is complete. -/
theorem verdict_endContent
    (hstatus : s.status = .content) (hne : buffer ≠ [])
    (h : ¬buffer.length < s.length - s.recvBuffer.length) :
    s.verdict remote (buffer ++ rest) =
      if s.length < headerCookieLength then .short
      else s.endContent.verdict remote
        (buffer.drop (s.length - s.recvBuffer.length) ++ rest) := by
  have hpos := List.length_pos_iff.mpr hne
  have hle : ¬(buffer ++ rest).length <
      max 1 (s.length - s.recvBuffer.length) := by
    rw [List.length_append]
    omega
  simp only [verdict, hstatus]
  rw [if_neg hle, List.drop_append_of_le_length (Nat.not_lt.mp h)]
  rfl

/-- The frame that is forwarded has the length that was announced. -/
theorem forward_eq_none
    (h : ¬buffer.length < s.length - s.recvBuffer.length) :
    forwardLocalMesssage id (s.recvBuffer ++
        buffer.take (s.length - s.recvBuffer.length)) = none ↔
      s.length < headerCookieLength := by
  have hle := s.recvBuffer_le
  have hlen : (s.recvBuffer ++
      buffer.take (s.length - s.recvBuffer.length)).length = s.length := by
    rw [List.length_append, List.length_take]
    omega
  have hlt := Nat.lt_of_le_of_lt (Nat.le_of_eq hlen) s.length_lt
  rw [forwardLocalMesssage_eq_none id hlt, hlen]

theorem exists_size (h : ¬buffer.length < 4 - s.size.length) :
    ∃ b₀ b₁ b₂ b₃,
      s.size ++ buffer.take (4 - s.size.length) = [b₀, b₁, b₂, b₃] := by
  have hsize := s.size_lt
  have hlen : (s.size ++ buffer.take (4 - s.size.length)).length = 4 := by
    rw [List.length_append, List.length_take]
    omega
  generalize s.size ++ buffer.take (4 - s.size.length) = size at hlen
  match size, hlen with
  | [b₀, b₁, b₂, b₃], _ => exact ⟨b₀, b₁, b₂, b₃, rfl⟩

theorem ne_nil_of_content
    (hstatus : s.status = .content) (h : buffer ≠ [] ∨ s.status = .header) :
    buffer ≠ [] := by
  rcases h with h | h
  · exact h
  · rw [hstatus] at h
    cases h

/-- A chunk bears the verdict on the bytes from it on out. -/
theorem bearsOut_pushSocketData
    (h : buffer ≠ [] ∨ s.status = .header) :
    BearsOut remote rest (s.verdict remote (buffer ++ rest))
      (s.pushSocketData id remote buffer) := by
  fun_induction pushSocketData id remote s buffer with
  | case1 s hstatus =>
      rcases h with h | h
      · exact absurd rfl h
      · rw [hstatus] at h
        cases h
  | case2 s hstatus remoteId buffer hid =>
      simp only [verdict, hstatus, List.cons_append]
      exact (if_pos hid).symm
  | case3 s hstatus remoteId buffer hid ih =>
      have hverdict : s.verdict remote (remoteId :: buffer ++ rest) =
          verdict { s with status := .header } remote (buffer ++ rest) := by
        simp only [verdict, hstatus, List.cons_append]
        exact if_neg hid
      rw [hverdict]
      exact ih (.inr rfl)
  | case4 s buffer hstatus hshort => exact verdict_readSize hstatus hshort
  | case5 s buffer hstatus hlong b₀ b₁ b₂ b₃ hsize hne =>
      exact verdict_refused hstatus hsize hne
  | case6 s buffer hstatus hlong b₀ b₁ b₂ b₃ hsize hzero tail hend =>
      have hnil : buffer.drop (4 - s.size.length) = [] :=
        List.eq_nil_of_length_eq_zero hend
      rw [← verdict_startContent hstatus hsize hzero, hnil]
      rfl
  | case7 s buffer hstatus hlong b₀ b₁ b₂ b₃ hsize hzero tail hmore ih =>
      have hne : tail ≠ [] := fun hnil => hmore (congrArg List.length hnil)
      rw [← verdict_startContent hstatus hsize hzero]
      exact ih (.inl hne)
  | case8 s buffer hstatus hlong hnone =>
      obtain ⟨b₀, b₁, b₂, b₃, hsize⟩ := exists_size hlong
      exact absurd hsize (hnone b₀ b₁ b₂ b₃)
  | case9 s buffer hstatus need hshort =>
      exact verdict_readContent hstatus hshort
  | case10 s buffer hstatus need hlong hnone =>
      rw [verdict_endContent hstatus (ne_nil_of_content hstatus h) hlong]
      exact if_pos ((forward_eq_none hlong).mp hnone)
  | case11 s buffer hstatus need hlong m hm tail hend =>
      have hnil : buffer.drop (s.length - s.recvBuffer.length) = [] :=
        List.eq_nil_of_length_eq_zero hend
      have hlen : ¬s.length < headerCookieLength := fun hlt => by
        rw [(forward_eq_none hlong).mpr hlt] at hm
        cases hm
      rw [verdict_endContent hstatus (ne_nil_of_content hstatus h) hlong,
        if_neg hlen, hnil]
      rfl
  | case12 s buffer hstatus need hlong m hm tail hmore ih =>
      have hlen : ¬s.length < headerCookieLength := fun hlt => by
        rw [(forward_eq_none hlong).mpr hlt] at hm
        cases hm
      rw [verdict_endContent hstatus (ne_nil_of_content hstatus h) hlong,
        if_neg hlen]
      exact bearsOut_andThen (ih (.inr rfl))
  | case13 s buffer hstatus | case14 s buffer hstatus =>
      simp only [BearsOut, verdict, hstatus]

end Chunk

/-! ## All chunks -/

variable {chunks : List (List UInt8)}

theorem bearsOut_feed
    {id : BitVec 8} {remote : ℕ} {s : Receiver}
    (hne : ∀ chunk ∈ chunks, chunk ≠ []) (rest : List UInt8) :
    BearsOut remote rest (s.verdict remote (chunks.flatten ++ rest))
      (s.feed id remote chunks) := by
  induction chunks generalizing s with
  | nil => rfl
  | cons chunk chunks ih =>
      have hchunk : BearsOut remote (chunks.flatten ++ rest)
          (s.verdict remote (chunk ++ (chunks.flatten ++ rest)))
          (s.pushSocketData id remote chunk) :=
        bearsOut_pushSocketData (.inl (hne chunk List.mem_cons_self))
      rw [List.flatten_cons, List.append_assoc, feed]
      cases hpush : s.pushSocketData id remote chunk with
      | none =>
          rw [hpush] at hchunk
          exact hchunk
      | some r =>
          rw [hpush] at hchunk
          have htail := ih (s := r.1)
            fun c hc => hne c (List.mem_cons_of_mem chunk hc)
          rw [show r.1.verdict remote (chunks.flatten ++ rest) =
            s.verdict remote (chunk ++ (chunks.flatten ++ rest)) from hchunk]
            at htail
          dsimp only
          cases hfeed : r.1.feed id remote chunks with
          | none | some r' =>
              rw [hfeed] at htail
              exact htail

/-- No mistake is found in no bytes, unless the link is closed. -/
theorem verdict_nil (s : Receiver) (remote : ℕ) :
    s.verdict remote [] = if s.status = .down then .refused else .fine := by
  have hsize : HarborLink.verdict (s.size ++ []) = .fine := by
    rw [List.append_nil]
    exact verdict_of_lt s.size_lt
  cases hstatus : s.status with
  | header =>
      simp only [verdict, hstatus]
      exact hsize
  | content =>
      simp only [verdict, hstatus]
      exact if_pos (Nat.lt_of_lt_of_le Nat.zero_lt_one (Nat.le_max_left _ _))
  | _ => simp only [verdict, hstatus]; rfl

theorem verdict_opened (remote : ℕ) (handshake : Bool) (bytes : List UInt8) :
    (opened handshake).verdict remote bytes =
      linkVerdict remote handshake bytes := by
  cases handshake with
  | false => rfl
  | true => cases bytes <;> rfl

theorem bearsOut_opened
    {id : BitVec 8} {remote : ℕ} {handshake : Bool}
    (hne : ∀ chunk ∈ chunks, chunk ≠ []) :
    BearsOut remote [] (linkVerdict remote handshake chunks.flatten)
      ((opened handshake).feed id remote chunks) := by
  rw [← verdict_opened, ← List.append_nil chunks.flatten]
  exact bearsOut_feed hne []

/-- A frame that is too short is read outside of its buffer. -/
theorem feed_eq_none
    {id : BitVec 8} {remote : ℕ} {handshake : Bool}
    (hne : ∀ chunk ∈ chunks, chunk ≠ [])
    (h : linkVerdict remote handshake chunks.flatten = .short) :
    (opened handshake).feed id remote chunks = none := by
  have hfeed : BearsOut remote [] .short
      ((opened handshake).feed id remote chunks) := h ▸ bearsOut_opened hne
  cases hresult : (opened handshake).feed id remote chunks with
  | none => rfl
  | some r =>
      rw [hresult] at hfeed
      have hnil : r.1.verdict remote [] = .short := hfeed
      rw [verdict_nil] at hnil
      split at hnil <;> cases hnil

end Receiver

/-- The bytes of a peer are read within their buffers in whatever chunks they
arrive, and a link is closed for bytes that are refused, if and only if no frame
that the bytes complete is too short for a header. -/
theorem read_inside_iff
    (id : BitVec 8) (remote : ℕ) (handshake : Bool)
    (chunks : List (List UInt8)) (hne : ∀ chunk ∈ chunks, chunk ≠ []) :
    (∃ s out, (Receiver.opened handshake).feed id remote chunks =
        some (s, out) ∧
      (s.status = .down ↔
        linkVerdict remote handshake chunks.flatten = .refused)) ↔
      linkVerdict remote handshake chunks.flatten ≠ .short := by
  by_cases hshort : linkVerdict remote handshake chunks.flatten = .short
  · refine iff_of_false ?_ (not_not.mpr hshort)
    rintro ⟨s, out, hsome, -⟩
    rw [Receiver.feed_eq_none hne hshort] at hsome
    cases hsome
  · have hfeed : Receiver.BearsOut remote []
        (linkVerdict remote handshake chunks.flatten)
        ((Receiver.opened handshake).feed id remote chunks) :=
      Receiver.bearsOut_opened hne
    cases hresult : (Receiver.opened handshake).feed id remote chunks with
    | none =>
      rw [hresult] at hfeed
      exact absurd hfeed hshort
    | some r =>
      rw [hresult] at hfeed
      have hnil : r.1.verdict remote [] =
        linkVerdict remote handshake chunks.flatten := hfeed
      rw [Receiver.verdict_nil] at hnil
      rw [← hnil]
      refine iff_of_true ⟨r.1, r.2, rfl, ?_⟩ (hnil ▸ hshort)
      by_cases hdown : r.1.status = .down
      · simp only [hdown, if_true]
      · simp only [hdown, if_false, reduceCtorEq]

/-- The theorem above for a frame of exactly a header, in two chunks. -/
theorem read_inside_iff_of_bare :
    (∃ s out, (Receiver.opened true).feed 1 2
        [[2, 0], 0 :: 0 :: 12 :: bareFrame.body] = some (s, out) ∧
      (s.status = .down ↔ linkVerdict 2 true
        [[2, 0], 0 :: 0 :: 12 :: bareFrame.body].flatten = .refused)) := by
  have hfine : linkVerdict 2 true
      [[2, 0], 0 :: 0 :: 12 :: bareFrame.body].flatten = .fine := by
    change (if (2 : UInt8).toNat ≠ 2 then Verdict.refused
      else verdict (0 :: 0 :: 0 :: 12 :: bareFrame.body)) = .fine
    rw [if_neg (by decide), verdict_cons, if_neg (by decide),
      if_neg (by decide)]
    exact verdict_of_lt (by decide)
  exact (read_inside_iff 1 2 true [[2, 0], 0 :: 0 :: 12 :: bareFrame.body]
    (by decide)).mpr (by rw [hfine]; exact fun h => by cases h)

/-- A frame of four bytes has no header, and is neither dropped nor
refused. -/
theorem short_frame_read_outside :
    ¬∀ chunks : List (List UInt8), (∀ chunk ∈ chunks, chunk ≠ []) →
      ((Receiver.opened false).feed 1 2 chunks).isSome := by
  intro h
  have hsome := h [[0, 0, 0, 4, 1, 2, 3, 4]] (by decide)
  have hshort : linkVerdict 2 false [0, 0, 0, 4, 1, 2, 3, 4] = .short := by
    change verdict [0, 0, 0, 4, 1, 2, 3, 4] = .short
    rw [verdict_cons, if_neg (by decide), if_pos (by decide)]
  have hnone : (Receiver.opened false).feed 1 2
      [[0, 0, 0, 4, 1, 2, 3, 4]] = none :=
    Receiver.feed_eq_none (by decide) hshort
  rw [hnone] at hsome
  cases hsome

end SkynetServer.HarborLink
