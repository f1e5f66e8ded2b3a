import SkynetServer.Harbor.LinkAgreement

/-!
# The frames on a link

A frame is a length of four bytes and as many bytes behind it, at least those
of the header of a message and less than `2 ^ 24`.  `push_socket_data` gets the
frames in chunks, which are not empty; the first of them may begin with the
byte of the handshake.

Whatever the chunks are, each frame is forwarded once when it is complete, and
the state tells how much of the next one has arrived.
-/

namespace SkynetServer.HarborLink

open Harbor

/-- The bytes behind the length of a frame. -/
structure Frame where
  body : List UInt8
  header_le : headerCookieLength ≤ body.length
  length_lt : body.length < 2 ^ 24

/-- The bytes of a frame. -/
def Frame.bytes (f : Frame) : List UInt8 :=
  toBigendian (BitVec.ofNat 32 f.body.length) ++ f.body

def frameStream (fs : List Frame) : List UInt8 := fs.flatMap Frame.bytes

/-- The length of the next frame. -/
def nextLength : List Frame → ℕ
  | [] => 0
  | f :: _ => f.body.length

/-- A link that was opened, before or after its handshake. -/
def Receiver.opened (handshake : Bool) : Receiver :=
  if handshake then { Receiver.waiting with status := .handshake }
  else Receiver.waiting

/-- The byte of the handshake, if it is expected. -/
def greeting (handshake : Bool) (remote : UInt8) : List UInt8 :=
  if handshake then [remote] else []

/-- The state when the handshake is awaited, or when the bytes `part` of the
first frame of the list have arrived. -/
structure Receiver.Describes (s : Receiver) (awaited : Bool)
    (part : List UInt8) (todo : List Frame) : Prop where
  status : s.status =
    if awaited then .handshake
    else if part.length < 4 then .header else .content
  size : s.size = if part.length < 4 then part else []
  recvBuffer : s.recvBuffer = part.drop 4
  length : s.length = if part.length < 4 then 0 else nextLength todo

/-! ## Frames and messages -/

theorem toBigendian_fromBigendian (a b c d : UInt8) :
    toBigendian (fromBigendian a b c d) = [a, b, c, d] := by
  have hbyte : ∀ x y : UInt8, (∀ i, i < 8 →
      x.toBitVec.getLsbD i = y.toBitVec.getLsbD i) → x = y := by
    intro x y h
    exact UInt8.toBitVec_inj.mp (BitVec.eq_of_getLsbD_eq fun i hi => h i hi)
  simp only [toBigendian, List.cons.injEq, and_true]
  refine ⟨hbyte _ _ ?_, hbyte _ _ ?_, hbyte _ _ ?_, hbyte _ _ ?_⟩
  all_goals
    intro i hi
    simp only [fromBigendian, BitVec.getLsbD_setWidth, BitVec.getLsbD_and,
      BitVec.getLsbD_ushiftRight, BitVec.getLsbD_or, BitVec.getLsbD_shiftLeft,
      getLsbD_byteMask]
    grind

/-- A destination is its handle with its type. -/
theorem mask_or_typeBits (w : BitVec 32) :
    (w &&& handleMask) ||| typeBits (typeOf w) = w := by
  apply BitVec.eq_of_getLsbD_eq
  intro i hi
  simp only [typeBits, typeOf, BitVec.getLsbD_or, BitVec.getLsbD_and,
    BitVec.getLsbD_shiftLeft, BitVec.getLsbD_setWidth,
    BitVec.getLsbD_ushiftRight, getLsbD_handleMask]
  grind

/-- Every frame is the package of a message. -/
theorem Frame.exists_message (f : Frame) :
    ∃ m : RemoteMessage, m.body = f.body ∧ m.Short := by
  have hle := f.header_le
  have hlt := f.length_lt
  have hdrop : (f.body.drop (f.body.length - headerCookieLength)).length =
      headerCookieLength := by
    rw [List.length_drop]
    omega
  have hsplit := List.take_append_drop
    (f.body.length - headerCookieLength) f.body
  have htake : (f.body.take (f.body.length - headerCookieLength)).length =
      f.body.length - headerCookieLength := by
    rw [List.length_take]
    omega
  generalize f.body.drop (f.body.length - headerCookieLength) = header
    at hdrop hsplit
  match header, hdrop with
  | [a₀, a₁, a₂, a₃, b₀, b₁, b₂, b₃, c₀, c₁, c₂, c₃], _ =>
    refine ⟨⟨fromBigendian b₀ b₁ b₂ b₃,
      f.body.take (f.body.length - headerCookieLength), 0,
      typeOf (fromBigendian b₀ b₁ b₂ b₃), fromBigendian a₀ a₁ a₂ a₃,
      fromBigendian c₀ c₁ c₂ c₃⟩, ?_, ?_⟩
    · calc
        _ = f.body.take (f.body.length - headerCookieLength) ++
            [a₀, a₁, a₂, a₃, b₀, b₁, b₂, b₃, c₀, c₁, c₂, c₃] := by
          simp only [RemoteMessage.body, RemoteMessage.cookie, headerToMessage,
            mask_or_typeBits, toBigendian_fromBigendian, List.cons_append,
            List.nil_append]
        _ = f.body := hsplit
    · rw [RemoteMessage.Short]
      dsimp only
      rw [htake]
      omega

/-- The messages of which the frames are the packages. -/
theorem exists_messages (fs : List Frame) :
    ∃ ms : List RemoteMessage, ms.map RemoteMessage.body = fs.map Frame.body ∧
      ∀ m ∈ ms, m.Short := by
  induction fs with
  | nil => exact ⟨[], rfl, List.forall_mem_nil _⟩
  | cons f fs ih =>
      obtain ⟨m, hbody, hshort⟩ := f.exists_message
      obtain ⟨ms, hbodies, hms⟩ := ih
      refine ⟨m :: ms, ?_, List.forall_mem_cons.mpr ⟨hshort, hms⟩⟩
      rw [List.map_cons, List.map_cons, hbody, hbodies]

theorem stream_eq
    {ms : List RemoteMessage} {fs : List Frame}
    (h : ms.map RemoteMessage.body = fs.map Frame.body) :
    stream ms = frameStream fs := by
  have hms : stream ms = (ms.map RemoteMessage.body).flatMap fun b =>
      toBigendian (BitVec.ofNat 32 b.length) ++ b := by
    rw [List.flatMap_map]
    rfl
  have hfs : frameStream fs = (fs.map Frame.body).flatMap fun b =>
      toBigendian (BitVec.ofNat 32 b.length) ++ b := by
    rw [List.flatMap_map]
    rfl
  rw [hms, hfs, h]

/-! ## Chunks -/

section Chunks

variable {id : BitVec 8} {remote : ℕ}

/-- Outside of a frame the fields for its content are empty. -/
def Receiver.Clean (s : Receiver) : Prop :=
  s.status = .handshake ∨ s.status = .header →
    s.length = 0 ∧ s.recvBuffer = []

theorem clean_of_content {s : Receiver} (h : s.status = .content) :
    s.Clean := by
  intro hor
  rw [h] at hor
  rcases hor with hor | hor
  · cases hor
  · cases hor

theorem clean_closeHarbor (s : Receiver) : s.closeHarbor.Clean := by
  intro hor
  rcases hor with hor | hor
  · cases hor
  · cases hor

theorem clean_of_pushSocketData
    {s s' : Receiver} {buffer : List UInt8} {out : List LocalMessage}
    (hs : s.Clean) (h : s.pushSocketData id remote buffer = some (s', out)) :
    s'.Clean := by
  fun_induction Receiver.pushSocketData id remote s buffer
    generalizing s' out with
  | case3 s hstatus remoteId buffer hid ih =>
      exact ih (fun _ => hs (.inl hstatus)) h
  | case4 s buffer hstatus hshort =>
      cases h
      exact fun _ => hs (.inr hstatus)
  | case6 =>
      cases h
      exact clean_of_content rfl
  | case7 =>
      rename_i ih
      exact ih (clean_of_content rfl) h
  | case9 s buffer hstatus =>
      cases h
      exact clean_of_content hstatus
  | case11 =>
      cases h
      exact fun _ => ⟨rfl, rfl⟩
  | case12 s buffer hstatus need hlen m hm =>
      rename_i ih
      rw [Receiver.andThen, Option.map_eq_some_iff] at h
      obtain ⟨⟨s'', out'⟩, hpush, heq⟩ := h
      cases heq
      exact ih (fun _ => ⟨rfl, rfl⟩) hpush
  | case1 | case8 | case10 => cases h
  | case2 | case5 =>
      cases h
      exact clean_closeHarbor _
  | case13 | case14 =>
      cases h
      exact hs

/-- Chunks of a stream forward the messages that they complete. -/
theorem feed_expects
    {s : Receiver} {chunks : List (List UInt8)} {rest : List UInt8}
    {ms : List RemoteMessage} (hms : ∀ m ∈ ms, m.Short) (hs : s.Clean)
    (h : s.Expects (chunks.flatten ++ rest) ms) :
    ∃ s' done todo, s.feed id remote chunks =
        some (s', done.map (RemoteMessage.received id)) ∧
      ms = done ++ todo ∧ s'.Expects rest todo ∧ s'.Clean := by
  induction chunks generalizing s ms with
  | nil => exact ⟨s, [], ms, rfl, rfl, h, hs⟩
  | cons chunk chunks ih =>
      rw [List.flatten_cons, List.append_assoc] at h
      have hforwards : s.Forwards id remote chunk (chunks.flatten ++ rest) ms :=
        forwards_of_expects hms h
      obtain ⟨s', done, todo, hpush, rfl, hexpects⟩ := hforwards
      obtain ⟨s'', done', todo', hfeed, rfl, hexpects', hclean⟩ := ih
        (fun m hm => hms m (List.mem_append_right done hm))
        (clean_of_pushSocketData hs hpush) hexpects
      refine ⟨s'', done ++ done', todo', ?_, (List.append_assoc ..).symm,
        hexpects', hclean⟩
      rw [Receiver.feed, hpush]
      dsimp only
      rw [hfeed, List.map_append]
      rfl

/-- What a receiver that expects the rest of frames has of the first one. -/
theorem describes_of_expects
    {s : Receiver} {rest : List UInt8} {ms : List RemoteMessage}
    {todo : List Frame} (hbody : ms.map RemoteMessage.body =
      todo.map Frame.body) (hclean : s.Clean) (h : s.Expects rest ms) :
    ∃ part, part ++ rest = frameStream todo ∧
      (∀ f fs, todo = f :: fs → part.length < f.bytes.length) ∧
        s.Describes false part todo := by
  have hstream := stream_eq hbody
  rcases h with ⟨hstatus, hbytes⟩ | ⟨hstatus, hsize, hlt, m, ms', rfl, hlen,
    hbytes⟩
  · obtain ⟨hlength, hbuffer⟩ := hclean (.inr hstatus)
    have hsize := s.size_lt
    refine ⟨s.size, hbytes.trans hstream, ?_, ?_⟩
    · intro f fs _
      rw [Frame.bytes, List.length_append]
      change s.size.length < 4 + _
      omega
    · refine ⟨?_, ?_, ?_, ?_⟩
      · rw [hstatus, if_pos hsize]
        rfl
      · rw [if_pos hsize]
      · rw [hbuffer, List.drop_eq_nil_of_le (by omega)]
      · rw [if_pos hsize, hlength]
  · cases todo with
    | nil => cases hbody
    | cons f todo =>
        simp only [List.map_cons, List.cons.injEq] at hbody
        obtain ⟨hfirst, hrest⟩ := hbody
        have hfour : (toBigendian (BitVec.ofNat 32 f.body.length)).length = 4 :=
          rfl
        refine ⟨toBigendian (BitVec.ofNat 32 f.body.length) ++ s.recvBuffer,
          ?_, ?_, ?_⟩
        · rw [List.append_assoc, hbytes, hfirst, stream_eq hrest]
          simp only [frameStream, List.flatMap_cons, Frame.bytes,
            List.append_assoc]
        · intro g gs heq
          cases heq
          rw [Frame.bytes, List.length_append, List.length_append, ← hfirst,
            ← hlen]
          omega
        · have hpart : ¬(toBigendian (BitVec.ofNat 32 f.body.length) ++
              s.recvBuffer).length < 4 := by
            rw [List.length_append, hfour]
            omega
          refine ⟨?_, ?_, ?_, ?_⟩
          · rw [hstatus, if_neg hpart]
            rfl
          · rw [if_neg hpart, hsize]
          · rw [List.drop_append, hfour]
            rfl
          · rw [if_neg hpart, hlen, hfirst]
            rfl

end Chunks

/-! ## All frames -/

theorem forward_frames
    {id : BitVec 8} {ms : List RemoteMessage} {fs : List Frame}
    (h : ms.map RemoteMessage.body = fs.map Frame.body) :
    (ms.map (RemoteMessage.received id)).map some =
      fs.map fun f => forwardLocalMesssage id f.body := by
  calc
    _ = (ms.map RemoteMessage.body).map (forwardLocalMesssage id) := by
      rw [List.map_map, List.map_map]
      exact List.map_congr_left fun m _ => (forward_body id m).symm
    _ = (fs.map Frame.body).map (forwardLocalMesssage id) := by rw [h]
    _ = _ := by
      rw [List.map_map]
      rfl

/-- The chunks have been read as complete frames, which were forwarded, and a
part of the next frame. -/
structure Reads (id : BitVec 8) (remote : ℕ) (s : Receiver)
    (chunks : List (List UInt8)) (bytes : List UInt8) (awaited : Bool)
    (frames : List Frame) (s' : Receiver) (out : List LocalMessage)
    (done todo : List Frame) (part : List UInt8) : Prop where
  feed : s.feed id remote chunks = some (s', out)
  frames_eq : frames = done ++ todo
  forwarded : out.map some = done.map fun f => forwardLocalMesssage id f.body
  bytes_eq : bytes = frameStream done ++ part
  part_prefix : part <+: frameStream todo
  incomplete : ∀ f fs, todo = f :: fs → part.length < f.bytes.length
  describes : s'.Describes awaited part todo

theorem reads_of_waiting
    {id : BitVec 8} {remote : ℕ} {frames : List Frame}
    {chunks : List (List UInt8)} {rest : List UInt8}
    (h : chunks.flatten ++ rest = frameStream frames) :
    ∃ s out done todo part, Reads id remote Receiver.waiting chunks
      chunks.flatten false frames s out done todo part := by
  obtain ⟨ms, hbody, hms⟩ := exists_messages frames
  have hclean : Receiver.waiting.Clean := fun _ => ⟨rfl, rfl⟩
  have hexpects : Receiver.waiting.Expects (chunks.flatten ++ rest) ms :=
    .inl ⟨rfl, h.trans (stream_eq hbody).symm⟩
  obtain ⟨s, msDone, msTodo, hfeed, rfl, hrest, hclean'⟩ :=
    feed_expects hms hclean hexpects
  rw [List.map_append] at hbody
  obtain ⟨done, todo, rfl, hdone, htodo⟩ := List.map_eq_append_iff.mp hbody.symm
  obtain ⟨part, hpart, hlt, hdescribes⟩ :=
    describes_of_expects htodo.symm hclean' hrest
  refine ⟨s, _, done, todo, part, hfeed, rfl, forward_frames hdone.symm, ?_,
    ⟨rest, hpart⟩, hlt, hdescribes⟩
  have hstream : chunks.flatten ++ rest =
      (frameStream done ++ part) ++ rest := by
    rw [h, List.append_assoc, hpart]
    exact List.flatMap_append
  exact List.append_cancel_right hstream

/-- The byte of the handshake only changes the status. -/
theorem feed_handshake
    {id : BitVec 8} {remote : UInt8} {chunk : List UInt8}
    {chunks : List (List UInt8)} :
    (Receiver.opened true).feed id remote.toNat ((remote :: chunk) :: chunks) =
      Receiver.waiting.feed id remote.toNat (chunk :: chunks) := by
  have hpush : (Receiver.opened true).pushSocketData id remote.toNat
      (remote :: chunk) =
        Receiver.waiting.pushSocketData id remote.toNat chunk := by
    rw [Receiver.pushSocketData.eq_def]
    exact if_neg (not_not.mpr rfl)
  rw [Receiver.feed, Receiver.feed, hpush]

/-- The chunks of frames, behind the byte of the handshake if it is expected,
forward every complete frame once and in order, and the state tells what has
arrived of the next one. -/
theorem frames_forwarded_once
    (id : BitVec 8) (remote : UInt8) (handshake : Bool) (frames : List Frame)
    (chunks : List (List UInt8)) (rest : List UInt8)
    (hne : ∀ chunk ∈ chunks, chunk ≠ [])
    (h : chunks.flatten ++ rest =
      greeting handshake remote ++ frameStream frames) :
    ∃ s out done todo part, Reads id remote.toNat (Receiver.opened handshake)
      chunks (chunks.flatten.drop (greeting handshake remote).length)
      (handshake && chunks.isEmpty) frames s out done todo part := by
  cases handshake with
  | false => exact reads_of_waiting h
  | true =>
      cases chunks with
      | nil =>
          refine ⟨_, [], [], frames, [], rfl, rfl, rfl, rfl,
            List.nil_prefix, ?_, rfl, rfl, rfl, rfl⟩
          intro f fs _
          rw [Frame.bytes, List.length_append]
          exact Nat.add_pos_left (Nat.zero_lt_succ 3) _
      | cons chunk chunks =>
          cases chunk with
          | nil => exact absurd rfl (hne [] List.mem_cons_self)
          | cons b chunk =>
              obtain ⟨rfl, hframes⟩ := List.cons.inj h
              have hwaiting : ∃ s out done todo part,
                  Reads id b.toNat Receiver.waiting (chunk :: chunks)
                    (chunk :: chunks).flatten false frames s out done todo
                    part := reads_of_waiting hframes
              obtain ⟨s, out, done, todo, part, hreads⟩ := hwaiting
              exact ⟨s, out, done, todo, part,
                { hreads with feed := feed_handshake.trans hreads.feed }⟩

/-- A frame without a message. -/
def bareFrame : Frame where
  body := List.replicate headerCookieLength 0
  header_le := Nat.le_refl _
  length_lt := by decide

theorem frames_forwarded_once_of_two :
    ∃ s out done todo part, Reads 1 2 (Receiver.opened true)
      [[2, 0], 0 :: 0 :: 12 :: bareFrame.body ++ [0, 0]]
      (0 :: 0 :: 0 :: 12 :: bareFrame.body ++ [0, 0]) false
      [bareFrame, bareFrame] s out done todo part :=
  frames_forwarded_once 1 2 true [bareFrame, bareFrame]
    [[2, 0], 0 :: 0 :: 12 :: bareFrame.body ++ [0, 0]]
    (0 :: 12 :: bareFrame.body)
    (by decide) (by decide)

end SkynetServer.HarborLink
