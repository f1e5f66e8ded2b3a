import SkynetServer.Gate.Dispatch
import SkynetServer.Support.Integers

/-!
# The gate cuts the stream of a client into its frames

A client sends frames, each behind its length in two or four bytes, and the
stream arrives in arbitrary chunks.  Between two chunks the buffer stands
inside the first frame that is not complete: its header is still unread, or is
kept in `header`.  A chunk that completes frames moves the buffer behind them
when their data is read, which needs a receiver.
-/

namespace SkynetServer.Gate

open Frames Transition

/-! ## Frames of a client -/

/-- The header of a frame of `n` bytes. -/
def HeaderStyle.header : HeaderStyle → ℕ → List UInt8
  | .S, n => [.ofNat (n >>> 8), .ofNat n]
  | .L, n => [.ofNat (n >>> 24), .ofNat (n >>> 16), .ofNat (n >>> 8), .ofNat n]

/-- A frame behind its header. -/
def HeaderStyle.encode (style : HeaderStyle) (frame : List UInt8) : List UInt8 :=
  style.header frame.length ++ frame

/-- The lengths that a client may send: those of the header which are shorter
than 16M. -/
def HeaderStyle.limit : HeaderStyle → ℕ
  | .S => 0x10000
  | .L => 0x1000000

section Header

variable {style : HeaderStyle}

@[simp] theorem length_header (n : ℕ) :
    (style.header n).length = style.size := by
  cases style with
  | S | L => rfl

theorem size_pos : 0 < style.size := by
  cases style with
  | S => exact Nat.two_pos
  | L => exact Nat.succ_pos 3

@[simp] theorem length_encode (f : List UInt8) :
    (style.encode f).length = style.size + f.length := by
  rw [HeaderStyle.encode, List.length_append, length_header]

theorem encode_ne_nil (f : List UInt8) : style.encode f ≠ [] := by
  intro h
  have hlen := congrArg List.length h
  have hpos : 0 < style.size := size_pos
  rw [length_encode, List.length_nil] at hlen
  omega

theorem lt_of_limit {n : ℕ} (h : n < style.limit) : n < 0x1000000 := by
  cases style with
  | S => exact Nat.lt_trans h (by decide)
  | L => exact h

/-- The number of a header of two bytes. -/
theorem number_S {n : ℕ} (h : n < 0x10000) :
    (UInt8.ofNat (n >>> 8)).toNat <<< 8 ||| (UInt8.ofNat n).toNat = n := by
  rw [UInt8.toNat_ofNat', UInt8.toNat_ofNat', Nat.shiftRight_eq_div_pow,
    ← Nat.shiftLeft_add_eq_or_of_lt (Nat.mod_lt _ (by decide)),
    Nat.shiftLeft_eq]
  omega

/-- The header that was read is the length of the frame. -/
theorem number_header {n : ℕ} (h : n < style.limit) :
    style.number (style.header n) = n := by
  cases style with
  | S => exact congrArg Nat.cast (number_S h)
  | L =>
      have hn : n < 0x1000000 := h
      have hfirst : (UInt8.ofNat (n >>> 24)).toNat = 0 := by
        rw [UInt8.toNat_ofNat', Nat.shiftRight_eq_div_pow]
        omega
      have hhigh : (UInt8.ofNat (n >>> 16)).toNat <<< 16 |||
          (UInt8.ofNat (n >>> 8)).toNat <<< 8 = n / 2 ^ 8 * 2 ^ 8 := by
        rw [UInt8.toNat_ofNat', UInt8.toNat_ofNat',
          Nat.shiftRight_eq_div_pow, Nat.shiftRight_eq_div_pow,
          ← Nat.shiftLeft_add_eq_or_of_lt, Nat.shiftLeft_eq,
          Nat.shiftLeft_eq]
        · omega
        · rw [Nat.shiftLeft_eq]
          omega
      have hnumber : (UInt8.ofNat (n >>> 24)).toNat <<< 24 |||
          (UInt8.ofNat (n >>> 16)).toNat <<< 16 |||
          (UInt8.ofNat (n >>> 8)).toNat <<< 8 ||| (UInt8.ofNat n).toNat =
            n := by
        rw [hfirst, Nat.zero_shiftLeft, Nat.zero_or, hhigh,
          UInt8.toNat_ofNat', ← Nat.shiftLeft_eq,
          ← Nat.shiftLeft_add_eq_or_of_lt (Nat.mod_lt _ (by decide)),
          Nat.shiftLeft_eq]
        omega
      change (BitVec.ofNat 32 _).toInt = n
      rw [hnumber, Integers.toInt_ofNat_of_lt (by omega)]

end Header

/-! ## Between two chunks -/

/-- The bytes of the frame that is being read. -/
def Databuffer.pending (style : HeaderStyle) (db : Databuffer) : List UInt8 :=
  if db.header = 0 then db.contents
  else style.header db.header.toNat ++ db.contents

/-- The buffer stands in front of the frames `rest` or inside the first one. -/
structure Databuffer.Stands
    (style : HeaderStyle) (db : Databuffer) (rest : List (List UInt8)) :
    Prop where
  ok : db.Ok
  fits : ∀ f ∈ rest, f.length < style.limit
  header : db.header = 0 ∨
    ∃ f rest', rest = f :: rest' ∧ f ≠ [] ∧ db.header = f.length
  pending : db.pending style <+: stream style.encode rest

section Stands

variable {style : HeaderStyle} {db : Databuffer} {rest : List (List UInt8)}

theorem pending_of_zero (h : db.header = 0) :
    db.pending style = db.contents := by
  rw [Databuffer.pending, if_pos h]

theorem pending_of_length
    {f : List UInt8} (hne : f ≠ []) (h : db.header = f.length) :
    db.pending style = style.header f.length ++ db.contents := by
  have hpos : 0 < f.length := List.length_pos_iff.mpr hne
  rw [Databuffer.pending, if_neg (by omega), h, Int.toNat_natCast]

theorem length_pending_le (db : Databuffer) :
    (db.pending style).length ≤ style.size + db.contents.length := by
  rw [Databuffer.pending]
  split_ifs
  · exact Nat.le_add_left _ _
  · simp only [List.length_append, length_header, Nat.le_refl]

/-- Either the header is not complete, or `databuffer_readheader` has the
header of the next frame. -/
theorem Databuffer.Stands.readheader (h : db.Stands style rest) :
    (db.readheader style = some (-1, db) ∧
        (db.pending style).length < style.size) ∨
      ∃ f rest' db', rest = f :: rest' ∧
        db.readheader style = some (db'.available, db') ∧ db'.Ok ∧
        db'.header = f.length ∧
        db.pending style = style.header f.length ++ db'.contents := by
  rcases h.header with hzero | ⟨f, rest', rfl, hne, hheader⟩
  · have hpending := h.pending
    rw [pending_of_zero hzero] at hpending ⊢
    rw [Databuffer.readheader, if_pos hzero, h.ok.size]
    rcases Nat.lt_or_ge db.contents.length style.size with hlt | hle
    · exact .inl ⟨if_pos hlt, hlt⟩
    · right
      obtain ⟨db', hread, hok, hcontents, -⟩ := h.ok.read size_pos hle
      have hlen := hpending.length_le
      have hpos : 0 < style.size := size_pos
      cases rest with
      | nil =>
          rw [stream_nil, List.length_nil] at hlen
          omega
      | cons f rest' =>
          have htake : db.contents.take style.size =
              style.header f.length := by
            obtain ⟨more, hmore⟩ := hpending
            have hcut := congrArg (List.take style.size) hmore
            rw [List.take_append_of_le_length hle, stream_cons,
              HeaderStyle.encode, List.append_assoc,
              List.take_left' (length_header _)] at hcut
            exact hcut
          rw [if_neg (Nat.not_lt.mpr hle), hread, htake]
          refine ⟨f, rest', { db' with header := f.length }, rfl, ?_,
            ⟨hok.offset, hok.size⟩, rfl, ?_⟩
          · dsimp only
            rw [number_header (h.fits f (.head _))]
          · change db.contents = _ ++ db'.contents
            rw [hcontents, ← htake, List.take_append_drop]
  · have hpos : 0 < f.length := List.length_pos_iff.mpr hne
    right
    refine ⟨f, rest', db, rfl, ?_, h.ok, hheader, pending_of_length hne hheader⟩
    rw [Databuffer.readheader, if_neg (by omega)]

end Stands

/-! ## One call of `dispatch_message` -/

/-- The frames that reach `_forward`. -/
def nonempty (fs : List (List UInt8)) : List (List UInt8) :=
  fs.filter (· ≠ [])

/-- The call gets the size of the frame, and the buffer starts with it. -/
def Call.Starts (call : Call) (frame : List UInt8) : Prop :=
  call.size = frame.length ∧ frame <+: call.unread

/-- What a call of `dispatch_message` changes. -/
def State.advance
    (s : State) (db : Databuffer) (calls : List Call) (sent : List Message) :
    State :=
  { s.setBuffer db with calls := s.calls ++ calls, sent := s.sent ++ sent }

theorem advance_advance
    (s : State) (db db' : Databuffer) (calls calls' : List Call)
    (sent sent' : List Message) :
    (s.advance db calls sent).advance db' calls' sent' =
      s.advance db' (calls ++ calls') (sent ++ sent') := by
  simp only [State.advance, State.setBuffer, List.append_assoc]

theorem advance_nil (s : State) (db : Databuffer) :
    s.advance db [] [] = s.setBuffer db := by
  simp only [State.advance, State.setBuffer, List.append_nil]

/-- The frames `done` went through the buffer of `s`, which then was `db`. -/
structure Passed
    (s : State) (rest done : List (List UInt8)) (db : Databuffer)
    (calls : List Call) (sent : List Message) : Prop where
  calls : List.Forall₂ Call.Starts calls (nonempty done)
  sent : List.Forall₂ Message.Carries sent (nonempty done)
  pending : s.connection.buffer.pending s.gate.header_size =
    stream s.gate.header_size.encode done ++ db.pending s.gate.header_size
  stands : db.Stands s.gate.header_size (rest.drop done.length)

section Loop

variable {s : State} {rest : List (List UInt8)}

/-- The frames which the bytes in the buffer complete. -/
def State.available (s : State) (rest : List (List UInt8)) :
    List (List UInt8) :=
  complete s.gate.header_size.encode rest
    (s.connection.buffer.pending s.gate.header_size).length

/-- One round of the loop on a complete frame. -/
theorem dispatchLoop_frame
    {f : List UInt8} {rest' : List (List UInt8)} {db : Databuffer} (fuel : ℕ)
    (h : s.connection.buffer.Stands s.gate.header_size (f :: rest'))
    (hread : s.connection.buffer.readheader s.gate.header_size =
      some (db.available, db))
    (hok : db.Ok) (hheader : db.header = f.length)
    (hpending : s.connection.buffer.pending s.gate.header_size =
      s.gate.header_size.header f.length ++ db.contents)
    (hle : f.length ≤ db.contents.length) (hreceiver : f ≠ [] → s.HasReceiver) :
    ∃ db' calls sent, dispatchLoop (fuel + 1) s =
        dispatchLoop fuel (s.advance db' calls sent) ∧
      List.Forall₂ Call.Starts calls (nonempty [f]) ∧
      List.Forall₂ Message.Carries sent (nonempty [f]) ∧
      s.connection.buffer.pending s.gate.header_size =
        s.gate.header_size.encode f ++ db'.contents ∧
      db'.Ok ∧ db'.header = 0 := by
  have havailable : db.available = f.length := by
    rw [Databuffer.available, hok.size, hheader, if_neg (by omega)]
  have htake : db.contents.take f.length = f := by
    obtain ⟨more, hmore⟩ := h.pending
    rw [hpending, stream_cons, HeaderStyle.encode, List.append_assoc,
      List.append_assoc] at hmore
    have hcut := congrArg (List.take f.length) (List.append_cancel_left hmore)
    rw [List.take_append_of_le_length hle, List.take_left] at hcut
    exact hcut
  have hsplit : s.connection.buffer.pending s.gate.header_size =
      s.gate.header_size.encode f ++ db.contents.drop f.length := by
    rw [hpending, HeaderStyle.encode, List.append_assoc]
    conv_lhs => rw [← List.take_append_drop f.length db.contents, htake]
  rw [dispatchLoop, hread, havailable]
  dsimp only
  rw [if_neg (by omega)]
  by_cases hne : f = []
  · subst hne
    refine ⟨db, [], [], ?_, .nil, .nil, hsplit, hok, hheader⟩
    rw [List.length_nil, if_neg (by decide), advance_nil]
  · have hpos : 0 < f.length := List.length_pos_iff.mpr hne
    have hshort := lt_of_limit (h.fits f (.head _))
    have hfilter : nonempty [f] = [f] :=
      List.filter_eq_self.mpr fun g hg => by
        rw [List.mem_singleton.mp hg]
        exact decide_eq_true hne
    obtain ⟨db', m, hforward, hok', hcontents, hm⟩ :=
      forward_of_receiver (s := (s.setBuffer db).called f.length)
        (hreceiver hne) hok hpos hle
    change m.Carries (db.contents.take f.length) at hm
    rw [htake] at hm
    refine ⟨db'.reset, [⟨f.length, db.contents⟩], [m], ?_, ?_, ?_, ?_,
      ⟨hok'.offset, hok'.size⟩, rfl⟩
    · rw [if_pos (by omega), if_neg (by omega), Int.toNat_natCast, hforward]
      rfl
    · rw [hfilter]
      exact .cons ⟨rfl, htake ▸ List.take_prefix _ _⟩ .nil
    · rw [hfilter]
      exact .cons hm .nil
    · rw [hsplit]
      exact congrArg _ hcontents.symm

theorem nonempty_cons (f : List UInt8) (fs : List (List UInt8)) :
    nonempty (f :: fs) = nonempty [f] ++ nonempty fs :=
  List.filter_append [f] fs

/-- A round of the loop that finds no complete frame ends it. -/
theorem dispatchLoop_end
    {db : Databuffer} {fuel : ℕ}
    (hread : s.connection.buffer.readheader s.gate.header_size =
      some (-1, db))
    (hstands : db.Stands s.gate.header_size rest)
    (hpending : s.connection.buffer.pending s.gate.header_size =
      db.pending s.gate.header_size) :
    dispatchLoop (fuel + 1) s = some (s.advance db [] []) ∧
      Passed s rest [] db [] [] := by
  refine ⟨?_, .nil, .nil, hpending, hstands⟩
  rw [dispatchLoop, hread, advance_nil]
  rfl

/-- Behind a frame the buffer stands in front of the next one. -/
theorem Databuffer.Stands.next
    {style : HeaderStyle} {db db' : Databuffer} {f : List UInt8}
    {rest' : List (List UInt8)} (h : db.Stands style (f :: rest'))
    (hsplit : db.pending style = style.encode f ++ db'.contents)
    (hok : db'.Ok) (hzero : db'.header = 0) : db'.Stands style rest' := by
  refine ⟨hok, fun g hg => h.fits g (.tail _ hg), .inl hzero, ?_⟩
  have hprefix := h.pending
  rw [hsplit, stream_cons] at hprefix
  rw [pending_of_zero hzero]
  exact (List.prefix_append_right_inj _).mp hprefix

theorem Passed.cons
    {f : List UInt8} {rest' done : List (List UInt8)} {db db' : Databuffer}
    {calls calls' : List Call} {sent sent' : List Message}
    (hcalls : List.Forall₂ Call.Starts calls (nonempty [f]))
    (hsent : List.Forall₂ Message.Carries sent (nonempty [f]))
    (hsplit : s.connection.buffer.pending s.gate.header_size =
      s.gate.header_size.encode f ++ db.contents)
    (hzero : db.header = 0)
    (h : Passed (s.advance db calls sent) rest' done db' calls' sent') :
    Passed s (f :: rest') (f :: done) db' (calls ++ calls')
      (sent ++ sent') where
  calls := by
    rw [nonempty_cons]
    exact List.rel_append hcalls h.calls
  sent := by
    rw [nonempty_cons]
    exact List.rel_append hsent h.sent
  pending := by
    have hpending : db.pending s.gate.header_size =
        stream s.gate.header_size.encode done ++
          db'.pending s.gate.header_size := h.pending
    have hcontents : db.pending s.gate.header_size = db.contents :=
      pending_of_zero hzero
    rw [hsplit, ← hcontents, hpending, stream_cons, List.append_assoc]
  stands := h.stands

/-- The loop passes the complete frames and ends inside the next one. -/
theorem dispatchLoop_spec
    {fuel : ℕ} (h : s.connection.buffer.Stands s.gate.header_size rest)
    (hfuel : (s.available rest).length ≤ fuel)
    (hreceiver : ∀ f ∈ s.available rest, f ≠ [] → s.HasReceiver) :
    ∃ db calls sent,
      dispatchLoop (fuel + 1) s = some (s.advance db calls sent) ∧
        Passed s rest (s.available rest) db calls sent := by
  induction rest generalizing s fuel with
  | nil =>
      rcases h.readheader with ⟨hread, -⟩ | ⟨f, rest', db, hrest, -⟩
      · exact ⟨_, _, _, dispatchLoop_end hread h rfl⟩
      · cases hrest
  | cons f rest' ih =>
      rcases h.readheader with
        ⟨hread, hlt⟩ | ⟨f', rest'', db, hrest, hread, hok, hheader, hpending⟩
      · have hnone : s.available (f :: rest') = [] :=
          complete_cons_of_lt _ (by rw [length_encode]; omega)
        rw [hnone]
        exact ⟨_, _, _, dispatchLoop_end hread h rfl⟩
      · cases hrest
        have hlen : (s.connection.buffer.pending s.gate.header_size).length =
            s.gate.header_size.size + db.contents.length := by
          rw [hpending, List.length_append, length_header]
        rcases Nat.lt_or_ge db.contents.length f.length with hlt | hle
        · have hnone : s.available (f :: rest') = [] :=
            complete_cons_of_lt _ (by rw [length_encode]; omega)
          have hne : f ≠ [] := List.length_pos_iff.mp (by omega)
          have hsame : db.pending s.gate.header_size =
              s.gate.header_size.header f.length ++ db.contents :=
            pending_of_length hne hheader
          have havailable : db.available = -1 := by
            rw [Databuffer.available, hok.size, hheader, if_pos (by omega)]
          rw [havailable] at hread
          rw [hnone]
          exact ⟨_, _, _, dispatchLoop_end hread
            ⟨hok, h.fits, .inr ⟨f, rest', rfl, hne, hheader⟩,
              hsame ▸ hpending ▸ h.pending⟩ (hpending.trans hsame.symm)⟩
        · have hcomplete : s.available (f :: rest') = f ::
              complete s.gate.header_size.encode rest'
                ((s.connection.buffer.pending s.gate.header_size).length -
                  (s.gate.header_size.encode f).length) :=
            complete_cons _ (by rw [length_encode]; omega)
          have hrec : f ≠ [] → s.HasReceiver :=
            hreceiver f (hcomplete ▸ .head _)
          cases fuel with
          | zero =>
              rw [hcomplete] at hfuel
              exact absurd hfuel (Nat.not_succ_le_zero _)
          | succ fuel =>
              obtain ⟨db', calls, sent, hloop, hcalls, hsent, hsplit, hok',
                hzero⟩ := dispatchLoop_frame (fuel + 1) h hread hok hheader
                  hpending hle hrec
              have hnext : (s.advance db' calls sent).available rest' =
                  complete s.gate.header_size.encode rest'
                    ((s.connection.buffer.pending s.gate.header_size).length -
                      (s.gate.header_size.encode f).length) := by
                have hcontents : db'.pending s.gate.header_size =
                    db'.contents := pending_of_zero hzero
                rw [hsplit, List.length_append, Nat.add_sub_cancel_left,
                  ← hcontents]
                rfl
              rw [hcomplete, ← hnext] at hfuel hreceiver ⊢
              obtain ⟨db'', calls', sent', hloop', hpassed⟩ :=
                ih (s := s.advance db' calls sent)
                  (h.next hsplit hok' hzero) (Nat.le_of_succ_le_succ hfuel)
                  fun g hg => hreceiver g (.tail _ hg)
              refine ⟨db'', calls ++ calls', sent ++ sent', ?_,
                hpassed.cons hcalls hsent hsplit hzero⟩
              rw [hloop, hloop', advance_advance]

/-- Data of the client, of which the buffer already has a part. -/
theorem Databuffer.Stands.push
    {style : HeaderStyle} {db : Databuffer} {data : List UInt8}
    (h : db.Stands style rest)
    (hstream : db.pending style ++ data <+: stream style.encode rest) :
    (db.push data).Stands style rest ∧
      (db.push data).pending style = db.pending style ++ data := by
  have hpending : (db.push data).pending style = db.pending style ++ data := by
    rw [Databuffer.pending, Databuffer.pending, h.ok.contents_push data]
    change (if db.header = 0 then _ else _) = _
    split_ifs
    · rfl
    · exact (List.append_assoc _ _ _).symm
  exact ⟨⟨h.ok.push data, h.fits, h.header, hpending ▸ hstream⟩, hpending⟩

theorem dispatch_message_spec
    {data : List UInt8} (h : s.connection.buffer.Stands s.gate.header_size rest)
    (hstream : s.connection.buffer.pending s.gate.header_size ++ data <+:
      stream s.gate.header_size.encode rest)
    (hreceiver : ∀ f ∈ complete s.gate.header_size.encode rest
        (s.connection.buffer.pending s.gate.header_size ++ data).length,
      f ≠ [] → s.HasReceiver) :
    ∃ db calls sent,
      dispatch_message s data = some (s.advance db calls sent) ∧
        Passed (s.setBuffer (s.connection.buffer.push data)) rest
          (complete s.gate.header_size.encode rest
            (s.connection.buffer.pending s.gate.header_size ++ data).length)
          db calls sent := by
  obtain ⟨hstands, hpending⟩ := h.push hstream
  rw [← hpending] at hreceiver ⊢
  refine dispatchLoop_spec (s := s.setBuffer (s.connection.buffer.push data))
    hstands ?_ hreceiver
  have hcount : (complete s.gate.header_size.encode rest
      ((s.connection.buffer.push data).pending s.gate.header_size).length).length
        ≤ ((s.connection.buffer.push data).pending s.gate.header_size).length :=
    length_complete_le (fun f _ => encode_ne_nil f) _
  have hlen : ((s.connection.buffer.push data).pending
      s.gate.header_size).length ≤
        s.gate.header_size.size + (s.connection.buffer.push data).contents.length :=
    length_pending_le _
  rw [← hstands.ok.size, Nat.add_comm] at hlen
  exact Nat.le_trans hcount hlen

end Loop

/-! ## The stream of a client -/

/-- The frames that have arrived. -/
def State.done (s : State) (fs : List (List UInt8)) : List (List UInt8) :=
  complete s.gate.header_size.encode fs s.received.length

/-- What arrives is the stream of the frames `fs`. -/
def Sends (fs : List (List UInt8)) (s : State) : Event → Prop
  | .data chunk =>
    s.received ++ chunk <+: stream s.gate.header_size.encode fs
  | .broker _ => True
  | .forward _ _ => True

/-- When a chunk completes a frame that is not empty, there is a receiver. -/
def Receives (fs : List (List UInt8)) (s : State) : Event → Prop
  | .data chunk =>
    ∀ f ∈ (complete s.gate.header_size.encode fs
        (s.received ++ chunk).length).drop (s.done fs).length,
      f ≠ [] → s.HasReceiver
  | .broker _ => True
  | .forward _ _ => True

instance (fs : List (List UInt8)) (s : State) : DecidablePred (Sends fs s)
  | .data chunk => inferInstanceAs (Decidable (s.received ++ chunk <+: _))
  | .broker _ => .isTrue trivial
  | .forward _ _ => .isTrue trivial

instance (fs : List (List UInt8)) (s : State) : DecidablePred (Receives fs s)
  | .data chunk => inferInstanceAs (Decidable
      (∀ f ∈ (complete s.gate.header_size.encode fs
        (s.received ++ chunk).length).drop (s.done fs).length,
          f ≠ [] → s.HasReceiver))
  | .broker _ => .isTrue trivial
  | .forward _ _ => .isTrue trivial

/-- Each frame that arrived and is not empty was given to `_forward`, and the
buffer stands behind the frames that arrived. -/
structure Framed (fs : List (List UInt8)) (s : State) : Prop where
  calls : List.Forall₂ Call.Starts s.calls (nonempty (s.done fs))
  buffer : s.received = stream s.gate.header_size.encode (s.done fs) ++
    s.connection.buffer.pending s.gate.header_size

/-- The invariant of a connection. -/
structure Inv (fs : List (List UInt8)) (s : State) : Prop
    extends Framed fs s where
  sent : List.Forall₂ Message.Carries s.sent (nonempty (s.done fs))
  stands : s.connection.buffer.Stands s.gate.header_size
    (fs.drop (s.done fs).length)
  closed : s.closed = false

section Run

variable {fs : List (List UInt8)} {s : State}

theorem Framed.sizes (h : Framed fs s) :
    s.calls.map Call.size = (nonempty (s.done fs)).map List.length := by
  rw [← List.forall₂_eq_eq_eq, List.forall₂_map_left_iff,
    List.forall₂_map_right_iff]
  exact h.calls.imp fun _ _ hstarts => hstarts.1

theorem init_inv
    {g : Gate} (id : ℤ) (hfits : ∀ f ∈ fs, f.length < g.header_size.limit) :
    Inv fs (.init g id) := by
  have hdone : (State.init g id).done fs = [] := by
    cases fs with
    | nil => rfl
    | cons f fs =>
        refine complete_cons_of_lt fs ?_
        rw [length_encode]
        exact Nat.add_pos_left size_pos _
  constructor
  · constructor
    · rw [hdone]
      exact .nil
    · rw [hdone]
      rfl
  · rw [hdone]
    exact .nil
  · rw [hdone]
    exact ⟨⟨Nat.le_refl _, rfl⟩, hfits, .inl rfl, List.nil_prefix⟩
  · rfl

/-- The frames that a chunk completes have gone through the buffer. -/
theorem Inv.passed
    {chunk : List UInt8} {done : List (List UInt8)} {db : Databuffer}
    {calls : List Call} {sent : List Message} (h : Inv fs s)
    (hdone : complete s.gate.header_size.encode fs
      (s.received ++ chunk).length = s.done fs ++ done)
    (hpush : (s.connection.buffer.push chunk).pending s.gate.header_size =
      s.connection.buffer.pending s.gate.header_size ++ chunk)
    (hpassed : Passed ({ s with received := s.received ++ chunk }.setBuffer
        (s.connection.buffer.push chunk))
      (fs.drop (s.done fs).length) done db calls sent) :
    Inv fs ({ s with received := s.received ++ chunk }.advance db calls
      sent) := by
  have hdone' : ({ s with received := s.received ++ chunk }.advance db calls
      sent).done fs = s.done fs ++ done := hdone
  have hnonempty : nonempty (s.done fs ++ done) =
      nonempty (s.done fs) ++ nonempty done := List.filter_append _ _
  have hpending : (s.connection.buffer.push chunk).pending
      s.gate.header_size = stream s.gate.header_size.encode done ++
        db.pending s.gate.header_size := hpassed.pending
  constructor
  · constructor
    · rw [hdone', hnonempty]
      exact List.rel_append h.calls hpassed.calls
    · rw [hdone']
      change s.received ++ chunk = stream s.gate.header_size.encode _ ++
        db.pending s.gate.header_size
      rw [stream_append, List.append_assoc, ← hpending, hpush,
        ← List.append_assoc, ← h.buffer]
  · rw [hdone', hnonempty]
    exact List.rel_append h.sent hpassed.sent
  · rw [hdone', List.length_append, ← List.drop_drop]
    exact hpassed.stands
  · exact h.closed

/-- A chunk of the stream. -/
theorem Inv.data
    {chunk : List UInt8} (h : Inv fs s) (hsends : Sends fs s (.data chunk))
    (hreceives : Receives fs s (.data chunk)) :
    ∃ s', step s (.data chunk) = .next s' ∧ Inv fs s' := by
  have hfs : s.done fs ++ fs.drop (s.done fs).length = fs :=
    complete_append_drop fs _
  have hlen : (s.received ++ chunk).length =
      (stream s.gate.header_size.encode (s.done fs)).length +
        (s.connection.buffer.pending s.gate.header_size ++ chunk).length := by
    rw [← List.length_append, ← List.append_assoc, ← h.buffer]
  have hdone : complete s.gate.header_size.encode fs
      (s.received ++ chunk).length = s.done fs ++
        complete s.gate.header_size.encode (fs.drop (s.done fs).length)
          (s.connection.buffer.pending s.gate.header_size ++ chunk).length := by
    rw [← complete_stream_append, hfs, hlen]
  have hstream : s.connection.buffer.pending s.gate.header_size ++ chunk <+:
      stream s.gate.header_size.encode (fs.drop (s.done fs).length) := by
    have hprefix : s.received ++ chunk <+: _ := hsends
    rw [← hfs, stream_append, h.buffer, List.append_assoc] at hprefix
    exact (List.prefix_append_right_inj _).mp hprefix
  have hreceiver : ∀ f ∈ complete s.gate.header_size.encode
      (fs.drop (s.done fs).length)
      (s.connection.buffer.pending s.gate.header_size ++ chunk).length,
      f ≠ [] → s.HasReceiver := by
    have hreceives' : ∀ f ∈ List.drop _ _, f ≠ [] → _ := hreceives
    rw [hdone, List.drop_left] at hreceives'
    exact hreceives'
  obtain ⟨db, calls, sent, hdispatch, hpassed⟩ :=
    dispatch_message_spec (s := { s with received := s.received ++ chunk })
      h.stands hstream hreceiver
  refine ⟨_, ?_, h.passed hdone (h.stands.push hstream).2 hpassed⟩
  have hopen : ¬ s.closed = true := by
    rw [h.closed]
    exact Bool.false_ne_true
  rw [step, if_neg hopen, hdispatch]

theorem Inv.step
    {l : Event} (h : Inv fs s) (hsends : Sends fs s l)
    (hreceives : Receives fs s l) : ∃ s', step s l = .next s' ∧ Inv fs s' := by
  cases l with
  | data chunk => exact h.data hsends hreceives
  | broker handle | forward agent client => exact ⟨_, rfl, { h with }⟩

/-- In every run in which each chunk that completes a frame with data finds a
receiver, the gate cuts the stream into its frames. -/
theorem frames_forwarded
    {g : Gate} {id : ℤ} (hfits : ∀ f ∈ fs, f.length < g.header_size.limit)
    (h : Reaches step (fun s l => Sends fs s l ∧ Receives fs s l)
      (.init g id) s) :
    Framed fs s ∧ List.Forall₂ Message.Carries s.sent (nonempty (s.done fs)) ∧
      ∀ l, Sends fs s l → Receives fs s l → ∃ s', step s l = .next s' := by
  have hinv : Inv fs s := by
    refine h.invariant (Inv fs) (init_inv id hfits) ?_
    rintro t l t' ht ⟨hsends, hreceives⟩ hs
    obtain ⟨t'', hs', ht'⟩ := ht.step hsends hreceives
    rw [hs] at hs'
    cases hs'
    exact ht'
  refine ⟨hinv.toFramed, hinv.sent, fun l hsends hreceives => ?_⟩
  obtain ⟨s', hs, -⟩ := hinv.step hsends hreceives
  exact ⟨s', hs⟩

/-- Two of the three chunks end inside a frame. -/
theorem frames_to_broker :
    ∃ s, Framed [[0, 2, 9], [], [5]] s ∧
      s.calls.map Call.size = [3, 1] ∧
      s.sent.map Message.data = [[0, 2, 9], [5]] := by
  obtain ⟨s, h, hcalls, hsent⟩ : ∃ s,
      execWhile step
        (fun s l => decide (Sends [[0, 2, 9], [], [5]] s l ∧
          Receives [[0, 2, 9], [], [5]] s l))
        (.init { watchdog := 0, broker := 0, client_tag := 3
                 header_size := .S } 1)
        [.data [0], .broker 0x01000002#32, .data [3, 0, 2, 9, 0],
          .data [0, 0, 1, 5]] = .next s ∧
      s.calls.map Call.size = [3, 1] ∧
      s.sent.map Message.data = [[0, 2, 9], [5]] := ⟨_, rfl, rfl, rfl⟩
  have hrun := reaches_of_execWhile (fun s l => of_decide_eq_true) h
  exact ⟨s, (frames_forwarded (by decide) hrun).1, hcalls, hsent⟩

/-- Without a receiver the data of the first frame is read as a header. -/
theorem frame_not_read :
    ∃ s, (∀ f ∈ [[0, 2, 9], [5]], f.length < HeaderStyle.S.limit) ∧
      Reaches step (Sends [[0, 2, 9], [5]])
        (.init { watchdog := 0, broker := 0, client_tag := 3
                 header_size := .S } 1) s ∧
      s.calls.map Call.size = [3, 2] ∧ ¬ Framed [[0, 2, 9], [5]] s := by
  obtain ⟨s, h, hcalls, hdone⟩ : ∃ s,
      execWhile step (fun s l => decide (Sends [[0, 2, 9], [5]] s l))
        (.init { watchdog := 0, broker := 0, client_tag := 3
                 header_size := .S } 1)
        [.data [0, 3, 0, 2, 9], .data [0, 1, 5]] = .next s ∧
      s.calls.map Call.size = [3, 2] ∧
      nonempty (s.done [[0, 2, 9], [5]]) = [[0, 2, 9], [5]] :=
    ⟨_, rfl, rfl, rfl⟩
  have hrun := reaches_of_execWhile (fun s l => of_decide_eq_true) h
  refine ⟨s, by decide, hrun, hcalls, fun hframed => ?_⟩
  have hsizes := hframed.sizes
  rw [hcalls, hdone] at hsizes
  exact absurd hsizes (by decide)

end Run

end SkynetServer.Gate
