import SkynetServer.Gate.Dispatch

/-!
# The limit of a frame

`dispatch_message` closes a connection whose frame declares 16M or more.  It
learns the length from `databuffer_readheader`, which returns it when the whole
frame has arrived, and which reads a length of `2 ^ 31` or more as a negative
number.

Data that has arrived goes to `dispatch_message` also when the socket is being
closed.
-/

namespace SkynetServer.Gate

open Transition

/-- The number that the header of four bytes declares. -/
def declared (b₀ b₁ b₂ b₃ : UInt8) : ℕ :=
  b₀.toNat <<< 24 ||| b₁.toNat <<< 16 ||| b₂.toNat <<< 8 ||| b₃.toNat

/-- The first header of 16M or more that `dispatch_message` gets to, with the
number of bytes behind it.  When nobody receives frames, their bytes are read as
headers. -/
def overlong (receives : Bool) : List UInt8 → Option (ℕ × ℕ)
  | b₀ :: b₁ :: b₂ :: b₃ :: rest =>
    if 0x1000000 ≤ declared b₀ b₁ b₂ b₃ then
      some (declared b₀ b₁ b₂ b₃, rest.length)
    else if rest.length < declared b₀ b₁ b₂ b₃ then none
    else
      overlong receives
        (if receives then rest.drop (declared b₀ b₁ b₂ b₃) else rest)
  | _ => none
termination_by bytes => bytes.length
decreasing_by
  split_ifs
  · rw [List.length_drop]
    simp only [List.length_cons]
    omega
  · simp only [List.length_cons]
    omega

/-- The same when the header `n` is read already. -/
def overlongBehind (receives : Bool) (n : ℕ) (bytes : List UInt8) :
    Option (ℕ × ℕ) :=
  if bytes.length < n then none
  else overlong receives (if receives then bytes.drop n else bytes)

theorem overlongBehind_zero (receives : Bool) (bytes : List UInt8) :
    overlongBehind receives 0 bytes = overlong receives bytes := by
  rw [overlongBehind, if_neg (Nat.not_lt_zero _)]
  split_ifs <;> rfl

theorem overlong_of_short
    {receives : Bool} {bytes : List UInt8} (h : bytes.length < 4) :
    overlong receives bytes = none := by
  rw [overlong.eq_def]
  split
  · simp only [List.length_cons] at h
    omega
  · rfl

/-- A short header is followed by its frame. -/
theorem overlong_cons
    {receives : Bool} {b₀ b₁ b₂ b₃ : UInt8} {rest : List UInt8}
    (h : declared b₀ b₁ b₂ b₃ < 0x1000000) :
    overlong receives (b₀ :: b₁ :: b₂ :: b₃ :: rest) =
      overlongBehind receives (declared b₀ b₁ b₂ b₃) rest := by
  rw [overlong, if_neg (Nat.not_le.mpr h)]
  rfl

theorem overlong_of_le
    {receives : Bool} {b₀ b₁ b₂ b₃ : UInt8} {rest : List UInt8}
    (h : 0x1000000 ≤ declared b₀ b₁ b₂ b₃) :
    overlong receives (b₀ :: b₁ :: b₂ :: b₃ :: rest) =
      some (declared b₀ b₁ b₂ b₃, rest.length) := by
  rw [overlong, if_pos h]

theorem declared_lt (b₀ b₁ b₂ b₃ : UInt8) :
    declared b₀ b₁ b₂ b₃ < 0x100000000 := by
  have hbyte : ∀ b : UInt8, b.toNat < 2 ^ 8 := fun b => b.toNat_lt
  have h₀ : b₀.toNat <<< 24 < 2 ^ 32 := by
    rw [Nat.shiftLeft_eq]
    have := hbyte b₀
    omega
  have h₁ : b₁.toNat <<< 16 < 2 ^ 32 := by
    rw [Nat.shiftLeft_eq]
    have := hbyte b₁
    omega
  have h₂ : b₂.toNat <<< 8 < 2 ^ 32 := by
    rw [Nat.shiftLeft_eq]
    have := hbyte b₂
    omega
  have h₃ : b₃.toNat < 2 ^ 32 := by
    have := hbyte b₃
    omega
  exact Nat.or_lt_two_pow (Nat.or_lt_two_pow (Nat.or_lt_two_pow h₀ h₁) h₂) h₃

/-- The header as an `int`. -/
theorem number_eq (b₀ b₁ b₂ b₃ : UInt8) :
    HeaderStyle.L.number [b₀, b₁, b₂, b₃] =
      if declared b₀ b₁ b₂ b₃ < 0x80000000 then (declared b₀ b₁ b₂ b₃ : ℤ)
      else (declared b₀ b₁ b₂ b₃ : ℤ) - 0x100000000 := by
  have hlt := declared_lt b₀ b₁ b₂ b₃
  change (BitVec.ofNat 32 (declared b₀ b₁ b₂ b₃)).toInt = _
  rw [BitVec.toInt_eq_toNat_cond, BitVec.toNat_ofNat,
    Nat.mod_eq_of_lt (by omega)]
  split_ifs with h h' h'
  · rfl
  · omega
  · omega
  · rfl

/-! ## The loop -/

/-- The buffer is right, and has kept no header of 16M or more. -/
structure Databuffer.Short (db : Databuffer) : Prop where
  ok : db.Ok
  nonneg : 0 ≤ db.header
  lt : db.header < 0x1000000

/-- Between two calls of `dispatch_message`, the frame is not complete. -/
structure Databuffer.Rests (db : Databuffer) : Prop extends db.Short where
  incomplete : db.contents.length < max 4 db.header.toNat

/-- What a call of `dispatch_message` makes of the connection. -/
def Settled (s s' : State) : Option (ℕ × ℕ) → Prop
  | none => s'.closed = s.closed ∧ s'.connection.buffer.Rests
  | some (n, m) =>
    if n < 0x80000000 ∧ n ≤ m then
      s'.closed = true ∧ s'.connection.buffer = .clear
    else s'.connection.buffer.header ≠ 0

section Loop

variable {s : State} {fuel : ℕ}

/-- A complete frame is forwarded, and is read if there is a receiver. -/
theorem forward_called
    {n : ℕ} (hok : s.connection.buffer.Ok) (hpos : 0 < n)
    (hle : n ≤ s.connection.buffer.contents.length) :
    ∃ s', forward (s.called n) n = some s' ∧ s'.gate = s.gate ∧
      s'.closed = s.closed ∧ (s'.HasReceiver ↔ s.HasReceiver) ∧
      s'.connection.buffer.Ok ∧ s'.connection.buffer.contents =
        if s.HasReceiver then s.connection.buffer.contents.drop n
        else s.connection.buffer.contents := by
  by_cases h : s.HasReceiver
  · obtain ⟨db, m, hforward, hdb, hcontents, -⟩ :=
      forward_of_receiver (s := s.called n) h hok hpos hle
    refine ⟨_, hforward, rfl, rfl, Iff.rfl, hdb, ?_⟩
    rw [if_pos h]
    exact hcontents
  · refine ⟨_, forward_of_no_receiver (s := s.called n) h, rfl, rfl, Iff.rfl,
      hok, ?_⟩
    rw [if_neg h]
    rfl

/-- Whether the bytes of a frame are read. -/
def State.receives (s : State) : Bool := decide s.HasReceiver

/-- A state in which `dispatch_message` goes on with the next header. -/
structure Resumes (s t : State) (bytes : List UInt8) : Prop where
  gate : t.gate = s.gate
  closed : t.closed = s.closed
  receives : t.receives = s.receives
  ok : t.connection.buffer.Ok
  header : t.connection.buffer.header = 0
  contents : t.connection.buffer.contents = bytes

variable {db : Databuffer}

/-- A round of the loop with a header of less than 16M. -/
theorem dispatchLoop_short
    (fuel : ℕ)
    (hread : s.connection.buffer.readheader s.gate.header_size =
      some (db.available, db))
    (hdb : db.Short) :
    (db.contents.length < db.header.toNat ∧
        dispatchLoop (fuel + 1) s = some (s.setBuffer db)) ∨
      (¬db.contents.length < db.header.toNat ∧
        ∃ t, dispatchLoop (fuel + 1) s = dispatchLoop fuel t ∧
          Resumes s t (if s.receives then db.contents.drop db.header.toNat
            else db.contents)) := by
  have hnonneg := hdb.nonneg
  have hlt := hdb.lt
  have hsize := hdb.ok.size
  rw [dispatchLoop, hread]
  dsimp only
  rcases Nat.lt_or_ge db.contents.length db.header.toNat with hshort | hlong
  · have havailable : db.available = -1 := by
      rw [Databuffer.available, if_pos (by omega)]
    exact .inl ⟨hshort, by rw [havailable]; rfl⟩
  · have havailable : db.available = db.header := by
      rw [Databuffer.available, if_neg (by omega)]
    refine .inr ⟨Nat.not_lt.mpr hlong, ?_⟩
    rw [havailable, if_neg (by omega)]
    by_cases hpos : db.header > 0
    · obtain ⟨t, hforward, hgate, hclosed, hreceives, hok, hcontents⟩ :=
        forward_called (s := s.setBuffer db) (n := db.header.toNat) hdb.ok
          (by omega) hlong
      refine ⟨t.setBuffer t.connection.buffer.reset, ?_, hgate, hclosed, ?_,
        ⟨hok.offset, hok.size⟩, rfl, ?_⟩
      · rw [if_pos hpos, if_neg (by omega), hforward]
      · exact decide_eq_decide.mpr hreceives
      · refine hcontents.trans ?_
        simp only [State.receives, decide_eq_true_eq]
        rfl
    · have hzero : db.header = 0 := by omega
      refine ⟨s.setBuffer db, ?_, rfl, rfl, rfl, hdb.ok, hzero, ?_⟩
      · rw [if_neg hpos]
      · rw [hzero, Int.toNat_zero, List.drop_zero, ite_self]
        rfl

/-- A round of the loop with a header of 16M or more ends it. -/
theorem dispatchLoop_overlong
    {b₀ b₁ b₂ b₃ : UInt8}
    (hread : s.connection.buffer.readheader s.gate.header_size =
      some (db.available, db))
    (hok : db.Ok) (hheader : db.header = HeaderStyle.L.number [b₀, b₁, b₂, b₃])
    (h : 0x1000000 ≤ declared b₀ b₁ b₂ b₃) :
    ∃ s', dispatchLoop (fuel + 1) s = some s' ∧ s'.gate = s.gate ∧
      Settled s s' (some (declared b₀ b₁ b₂ b₃, db.contents.length)) := by
  have hlt := declared_lt b₀ b₁ b₂ b₃
  have hsize := hok.size
  rw [number_eq] at hheader
  rw [dispatchLoop, hread]
  dsimp only [Settled]
  by_cases hint : declared b₀ b₁ b₂ b₃ < 0x80000000
  · rw [if_pos hint] at hheader
    by_cases hle : declared b₀ b₁ b₂ b₃ ≤ db.contents.length
    · have havailable : db.available = db.header := by
        rw [Databuffer.available, if_neg (by omega)]
      refine ⟨{ s.setBuffer .clear with closed := true }, ?_, rfl, ?_⟩
      · rw [havailable, if_neg (by omega), if_pos (by omega),
          if_pos (by omega)]
        rfl
      · rw [if_pos ⟨hint, hle⟩]
        exact ⟨rfl, rfl⟩
    · have havailable : db.available = -1 := by
        rw [Databuffer.available, if_pos (by omega)]
      refine ⟨s.setBuffer db, by rw [havailable]; rfl, rfl, ?_⟩
      rw [if_neg fun hand => hle hand.2]
      change db.header ≠ 0
      omega
  · rw [if_neg hint] at hheader
    have havailable : db.available = db.header := by
      rw [Databuffer.available, if_neg (by omega)]
    refine ⟨s.setBuffer db, ?_, rfl, ?_⟩
    · rw [havailable, if_pos (by omega)]
    · rw [if_neg fun hand => hint hand.1]
      change db.header ≠ 0
      omega

/-- `databuffer_readheader` reads four bytes. -/
theorem readheader_four
    (hok : db.Ok) (hzero : db.header = 0)
    {b₀ b₁ b₂ b₃ : UInt8} {rest : List UInt8}
    (h : db.contents = b₀ :: b₁ :: b₂ :: b₃ :: rest) :
    ∃ db', db.readheader .L = some (db'.available, db') ∧ db'.Ok ∧
      db'.header = HeaderStyle.L.number [b₀, b₁, b₂, b₃] ∧
      db'.contents = rest := by
  have hle : HeaderStyle.L.size ≤ db.contents.length := by
    rw [h]
    exact Nat.le_add_left 4 _
  obtain ⟨db', hread, hok', hcontents, -⟩ := hok.read (show 0 < 4 by decide) hle
  rw [h] at hread hcontents
  refine ⟨{ db' with header := HeaderStyle.L.number [b₀, b₁, b₂, b₃] }, ?_,
    ⟨hok'.offset, hok'.size⟩, rfl, hcontents⟩
  rw [Databuffer.readheader, if_pos hzero, hok.size,
    if_neg (Nat.not_lt.mpr hle)]
  rw [show db.read HeaderStyle.L.size = some ([b₀, b₁, b₂, b₃], db') from
    hread]

/-- `databuffer_readheader` waits for four bytes. -/
theorem readheader_wait
    (hok : db.Ok) (hzero : db.header = 0)
    (h : db.contents.length < 4) : db.readheader .L = some (-1, db) := by
  rw [Databuffer.readheader, if_pos hzero, hok.size]
  exact if_pos h

theorem settled_resumes
    {t s' : State} {bytes : List UInt8} {o : Option (ℕ × ℕ)}
    (ht : Resumes s t bytes) (h : Settled t s' o) : Settled s s' o := by
  cases o with
  | none => exact ⟨h.1.trans ht.closed, h.2⟩
  | some p => exact h

/-- The loop settles the connection, with the bytes that are behind the header
which was read. -/
theorem dispatchLoop_settled
    (hstyle : s.gate.header_size = .L) (hshort : s.connection.buffer.Short)
    (hfuel : s.connection.buffer.contents.length +
      (if s.connection.buffer.header = 0 then 0 else 1) < fuel) :
    ∃ s', dispatchLoop fuel s = some s' ∧ s'.gate = s.gate ∧
      Settled s s' (overlongBehind s.receives
        s.connection.buffer.header.toNat s.connection.buffer.contents) := by
  induction fuel generalizing s with
  | zero => exact absurd hfuel (Nat.not_lt_zero _)
  | succ fuel ih =>
      -- behind a header of less than 16M
      have hround : ∀ db : Databuffer, db.Short →
          s.connection.buffer.readheader s.gate.header_size =
            some (db.available, db) →
          db.contents.length < fuel →
          (db.contents.length < db.header.toNat → db.Rests) →
          ∃ s', dispatchLoop (fuel + 1) s = some s' ∧ s'.gate = s.gate ∧
            Settled s s' (overlongBehind s.receives db.header.toNat
              db.contents) := by
        intro db hdb hread hless hrests
        rcases dispatchLoop_short fuel hread hdb with
          ⟨hlt, hloop⟩ | ⟨hge, t, hloop, ht⟩
        · refine ⟨_, hloop, rfl, ?_⟩
          rw [overlongBehind, if_pos hlt]
          exact ⟨rfl, hrests hlt⟩
        · have hlen : t.connection.buffer.contents.length ≤
              db.contents.length := by
            rw [ht.contents]
            split_ifs
            · rw [List.length_drop]
              exact Nat.sub_le _ _
            · exact Nat.le_refl _
          obtain ⟨s', hloop', hgate, hsettled⟩ := ih (s := t)
            (ht.gate ▸ hstyle)
            ⟨ht.ok, Int.le_of_eq ht.header.symm, by rw [ht.header]; decide⟩
            (by rw [ht.header, if_pos rfl]; omega)
          refine ⟨s', hloop.trans hloop', hgate.trans ht.gate, ?_⟩
          rw [ht.header, Int.toNat_zero, overlongBehind_zero, ht.contents,
            ht.receives] at hsettled
          rw [overlongBehind, if_neg hge]
          exact settled_resumes ht hsettled
      by_cases hzero : s.connection.buffer.header = 0
      · rw [if_pos hzero] at hfuel
        rw [hzero, Int.toNat_zero, overlongBehind_zero]
        rcases Nat.lt_or_ge s.connection.buffer.contents.length 4 with
          hwait | hfour
        · refine ⟨s.setBuffer s.connection.buffer, ?_, rfl, ?_⟩
          · rw [dispatchLoop, hstyle, readheader_wait hshort.ok hzero hwait]
            rfl
          · rw [overlong_of_short hwait]
            exact ⟨rfl, hshort, Nat.lt_of_lt_of_le hwait (Nat.le_max_left _ _)⟩
        · match hbytes : s.connection.buffer.contents, hfour with
          | b₀ :: b₁ :: b₂ :: b₃ :: rest, _ =>
            obtain ⟨db, hread, hok, hheader, hrest⟩ :=
              readheader_four hshort.ok hzero hbytes
            rw [← hstyle] at hread
            rcases Nat.lt_or_ge (declared b₀ b₁ b₂ b₃) 0x1000000 with hlt | hge
            · have hsmall : db.header = declared b₀ b₁ b₂ b₃ := by
                rw [hheader, number_eq, if_pos (by omega)]
              have hdb : db.Short := ⟨hok, by omega, by omega⟩
              rw [overlong_cons hlt, ← hrest,
                ← show db.header.toNat = declared b₀ b₁ b₂ b₃ by omega]
              refine hround db hdb hread ?_ fun hin => ⟨hdb, ?_⟩
              · rw [hbytes] at hfuel
                simp only [List.length_cons] at hfuel
                rw [hrest]
                omega
              · exact Nat.lt_of_lt_of_le hin (Nat.le_max_right _ _)
            · rw [overlong_of_le hge, ← hrest]
              exact dispatchLoop_overlong hread hok hheader hge
      · rw [if_neg hzero] at hfuel
        refine hround s.connection.buffer hshort ?_ (by omega) fun hin =>
          ⟨hshort, Nat.lt_of_lt_of_le hin (Nat.le_max_right _ _)⟩
        rw [Databuffer.readheader, if_neg hzero]

theorem dispatch_message_settled
    (data : List UInt8) (hstyle : s.gate.header_size = .L)
    (hshort : s.connection.buffer.Short) :
    ∃ s', dispatch_message s data = some s' ∧ s'.gate = s.gate ∧
      Settled s s' (overlongBehind s.receives
        s.connection.buffer.header.toNat
        (s.connection.buffer.contents ++ data)) := by
  have hcontents := hshort.ok.contents_push data
  have hok := hshort.ok.push data
  have hsize := hok.size
  rw [dispatch_message, ← hcontents]
  refine dispatchLoop_settled
    (s := s.setBuffer (s.connection.buffer.push data)) hstyle
    ⟨hok, hshort.nonneg, hshort.lt⟩ ?_
  have hstart : (if s.connection.buffer.header = 0 then 0 else 1) ≤ 1 := by
    split_ifs
    · exact Nat.zero_le 1
    · exact Nat.le_refl 1
  have hpos : 0 < s.gate.header_size.size := by
    rw [hstyle]
    decide
  change (s.connection.buffer.push data).contents.length +
    (if s.connection.buffer.header = 0 then 0 else 1) <
      (s.connection.buffer.push data).size + s.gate.header_size.size + 1
  omega

end Loop

/-! ## Runs -/

/-- One message of the gate, also behind `skynet_socket_close`. -/
def serve (s : State) : Event → Outcome GateFault State
  | .data buffer =>
    match dispatch_message { s with received := s.received ++ buffer }
        buffer with
    | none => .fault .databuffer
    | some s' => .next s'
  | .broker handle => step s (.broker handle)
  | .forward agent client => step s (.forward agent client)

/-- The header of 16M or more that is complete with a chunk. -/
def State.overlong (s : State) (chunk : List UInt8) : Option (ℕ × ℕ) :=
  overlongBehind s.receives s.connection.buffer.header.toNat
    (s.connection.buffer.contents ++ chunk)

/-- A header of 16M or more is one of less than 2G, and arrives with its whole
frame. -/
def Bounded (s : State) : Event → Prop
  | .data chunk =>
    match s.overlong chunk with
    | none => True
    | some (n, m) => n < 0x80000000 ∧ n ≤ m
  | .broker _ => True
  | .forward _ _ => True

/-- When a header of 16M or more is complete, the buffer is cleared and the
socket closed.  The buffer never holds more than 16M, a header and a chunk. -/
def Guarded (s : State) : Event → Prop
  | .data chunk =>
    (s.connection.buffer.push chunk).size ≤ 0x1000000 + 4 + chunk.length ∧
      ∃ s', serve s (.data chunk) = .next s' ∧
        (s.overlong chunk ≠ none →
          s'.closed = true ∧ s'.connection.buffer = .clear)
  | .broker _ => True
  | .forward _ _ => True

/-- The gate has headers of four bytes, and has kept none of 16M or more. -/
structure Regular (s : State) : Prop where
  style : s.gate.header_size = .L
  rests : s.connection.buffer.Rests

section Runs

variable {s s' : State}

theorem rests_clear : Databuffer.clear.Rests where
  ok := ⟨Nat.le_refl _, rfl⟩
  nonneg := Int.le_refl _
  lt := by decide
  incomplete := by decide

theorem regular_init {g : Gate} (id : ℤ) (h : g.header_size = .L) :
    Regular (.init g id) :=
  ⟨h, rests_clear⟩

theorem Regular.data (h : Regular s) (chunk : List UInt8) :
    ∃ s', serve s (.data chunk) = .next s' ∧ s'.gate = s.gate ∧
      Settled s s' (s.overlong chunk) := by
  obtain ⟨s', hdispatch, hgate, hsettled⟩ := dispatch_message_settled
    (s := { s with received := s.received ++ chunk }) chunk h.style
    h.rests.toShort
  have hsettled' : Settled { s with received := s.received ++ chunk } s'
      (s.overlong chunk) := hsettled
  refine ⟨s', ?_, hgate, ?_⟩
  · rw [serve, hdispatch]
  · cases ho : s.overlong chunk with
    | none | some p =>
        rw [ho] at hsettled'
        exact hsettled'

theorem Regular.serve {l : Event} (h : Regular s) (hok : Bounded s l)
    (hs : serve s l = .next s') : Regular s' := by
  cases l with
  | data chunk =>
      obtain ⟨t, ht, hgate, hsettled⟩ := h.data chunk
      rw [ht] at hs
      cases hs
      refine ⟨hgate ▸ h.style, ?_⟩
      rw [Bounded] at hok
      cases ho : s.overlong chunk with
      | none =>
          rw [ho] at hsettled
          exact hsettled.2
      | some p =>
          rw [ho] at hsettled hok
          rw [Settled, if_pos hok] at hsettled
          rw [hsettled.2]
          exact rests_clear
  | broker handle | forward agent client =>
      cases hs
      exact ⟨h.style, h.rests⟩

/-- At most 16M wait for the rest of a frame. -/
theorem Regular.size_push (h : Regular s) (chunk : List UInt8) :
    (s.connection.buffer.push chunk).size ≤ 0x1000000 + 4 + chunk.length := by
  have hsize := h.rests.ok.size
  have hlt := h.rests.lt
  have hlen := h.rests.incomplete
  change s.connection.buffer.size + chunk.length ≤ _
  omega

theorem Regular.guarded_iff (h : Regular s) (l : Event) :
    Bounded s l ↔ Guarded s l := by
  cases l with
  | data chunk =>
      obtain ⟨t, ht, -, hsettled⟩ := h.data chunk
      rw [Bounded, Guarded, ht]
      cases ho : s.overlong chunk with
      | none =>
          exact iff_of_true trivial
            ⟨h.size_push chunk, t, rfl, fun hne => absurd rfl hne⟩
      | some p =>
          rw [ho] at hsettled
          dsimp only
          by_cases hp : p.1 < 0x80000000 ∧ p.1 ≤ p.2
          · rw [Settled, if_pos hp] at hsettled
            exact iff_of_true hp
              ⟨h.size_push chunk, t, rfl, fun _ => hsettled⟩
          · rw [Settled, if_neg hp] at hsettled
            refine iff_of_false hp ?_
            rintro ⟨-, t', ht', hclosed⟩
            cases ht'
            rw [(hclosed (Option.some_ne_none p)).2] at hsettled
            exact hsettled rfl
  | broker handle | forward agent client => exact Iff.rfl

/-- A run closes the connection for every header of 16M or more when it is
complete, and bounds the buffer, if and only if each such header is one of less
than 2G that arrives with its whole frame. -/
theorem limit_kept_iff
    {g : Gate} (id : ℤ) (h : g.header_size = .L) (ls : List Event) :
    EveryStep serve (.init g id) Bounded ls ↔
      EveryStep serve (.init g id) Guarded ls :=
  everyStep_iff Regular (regular_init id h)
    (fun _ _ _ hs hok hstep => hs.serve hok hstep)
    (fun _ l hs => hs.guarded_iff l) ls

/-- A gate with headers of four bytes and a broker. -/
def gateOfFour : Gate where
  watchdog := 0
  broker := 1
  client_tag := 3
  header_size := .L

/-- The theorem above for a chunk with a frame of one byte. -/
theorem limit_kept_iff_of_one :
    EveryStep serve (.init gateOfFour 1) Guarded [.data [0, 0, 0, 1, 7]] := by
  refine (limit_kept_iff 1 rfl [.data [0, 0, 0, 1, 7]]).mp ?_
  have hnone : (State.init gateOfFour 1).overlong [0, 0, 0, 1, 7] = none := by
    refine (overlongBehind_zero _ _).trans ?_
    change overlong _ [0, 0, 0, 1, 7] = none
    rw [overlong_cons (by decide), overlongBehind, if_neg (by decide)]
    exact overlong_of_short (by decide)
  rw [everyStep_cons]
  refine ⟨?_, fun s _ pre l post t hls => ?_⟩
  · rw [Bounded, hnone]
    trivial
  · simp at hls

/-- A header of 16M alone does not close the connection. -/
theorem limit_not_kept :
    ¬∀ (g : Gate) (id : ℤ) (ls : List Event), g.header_size = .L →
      EveryStep serve (.init g id) Guarded ls := by
  intro h
  have hsome : (State.init gateOfFour 1).overlong [1, 0, 0, 0] =
      some (0x1000000, 0) :=
    (overlongBehind_zero _ _).trans (overlong_of_le (by decide))
  have hguarded := (everyStep_cons.mp
    (h gateOfFour 1 [.data [1, 0, 0, 0]] rfl)).1
  rw [← (regular_init 1 rfl).guarded_iff, Bounded, hsome] at hguarded
  exact absurd hguarded.2 (by decide)

end Runs

end SkynetServer.Gate
