import SkynetServer.Support.Framing
import SkynetServer.Cluster.Request

/-!
# Packages are read back

Every package that is packed is one package of the stream behind its size, and
unpacking it gives what was packed.
-/

namespace SkynetServer.Cluster

open LittleEndian

/-! ## Numbers and sizes -/

theorem unpackUint32_append
    (before : List UInt8) {n : ℕ} (after : List UInt8) (h : n < 2 ^ 32) :
    unpackUint32 (before ++ (fillUint32 n ++ after)) before.length = n := by
  have htake : (fillUint32 n ++ after).take 4 = fillUint32 n :=
    List.take_left' (length_bytes 4 n)
  rw [unpackUint32, List.drop_left, htake, fillUint32]
  exact number_bytes_of_lt h

/-- A package of the stream, with its size. -/
def Framed (package : List UInt8) : Prop :=
  ∃ a b content, package = a :: b :: content ∧
    content.length = Framing.number a b

theorem framed_fillHeader
    {sz : ℕ} {content : List UInt8} (hlen : content.length = sz)
    (hlt : sz < 0x10000) : Framed (fillHeader sz ++ content) := by
  refine ⟨_, _, content, rfl, ?_⟩
  have hhigh : (UInt8.ofNat (sz >>> 8)).toNat = sz / 256 := by
    rw [UInt8.toNat_ofNat', Nat.shiftRight_eq_div_pow]
    omega
  have hlow : (UInt8.ofNat sz).toNat = sz % 256 := UInt8.toNat_ofNat'
  rw [Framing.number, hhigh, hlow, hlen]
  omega

theorem length_fillUint32 (n : ℕ) : (fillUint32 n).length = 4 :=
  length_bytes 4 n

/-! ## Requests -/

section Requests

variable {session size : ℕ}

theorem unpackreqNumber_eq
    (addr : BitVec 32) (hsession : session < 2 ^ 32) (msg : List UInt8) :
    unpackrequest ([0] ++ fillUint32 addr.toNat ++ fillUint32 session ++
        msg) =
      .ok (.request (some (.handle addr)) session (some msg) msg.length false
        (session = 0)) := by
  have haddr : unpackUint32 ([0] ++ fillUint32 addr.toNat ++
      fillUint32 session ++ msg) 1 = addr.toNat := by
    have h := unpackUint32_append [0] (fillUint32 session ++ msg) addr.isLt
    simpa only [List.append_assoc, List.length_singleton] using h
  have hsess : unpackUint32 ([0] ++ fillUint32 addr.toNat ++
      fillUint32 session ++ msg) 5 = session := by
    have h := unpackUint32_append ([0] ++ fillUint32 addr.toNat) msg hsession
    simpa only [List.append_assoc, List.length_append, length_fillUint32,
      List.length_singleton] using h
  have hlen : ([0] ++ fillUint32 addr.toNat ++ fillUint32 session ++
      msg).length = 9 + msg.length := by
    simp only [List.length_append, length_fillUint32, List.length_singleton]
  have hdrop : ([0] ++ fillUint32 addr.toNat ++ fillUint32 session ++
      msg).drop 9 = msg :=
    List.drop_left' (by simp only [List.length_append, length_fillUint32,
      List.length_singleton])
  have hunpack : unpackrequest ([0] ++ fillUint32 addr.toNat ++
      fillUint32 session ++ msg) = unpackreqNumber ([0] ++
        fillUint32 addr.toNat ++ fillUint32 session ++ msg) := rfl
  rw [hunpack, unpackreqNumber, if_neg (by omega), haddr, hsess, hdrop, hlen,
    Nat.add_sub_cancel_left, BitVec.ofNat_toNat, BitVec.setWidth_eq]

theorem unpackmreqNumber_eq
    (addr : BitVec 32) (hsession : session < 2 ^ 32) (hsize : size < 2 ^ 32)
    (isPush : Bool) :
    unpackrequest ([if isPush then 0x41 else 1] ++ fillUint32 addr.toNat ++
        fillUint32 session ++ fillUint32 size) =
      .ok (.request (some (.handle addr)) session none size true isPush) := by
  obtain ⟨type, htype⟩ :
      ∃ type : UInt8, (if isPush then 0x41 else 1) = type := ⟨_, rfl⟩
  rw [htype]
  have haddr : unpackUint32 ([type] ++ fillUint32 addr.toNat ++
      fillUint32 session ++ fillUint32 size) 1 = addr.toNat := by
    have h := unpackUint32_append [type]
      (fillUint32 session ++ fillUint32 size) addr.isLt
    simpa only [List.append_assoc, List.length_singleton] using h
  have hsess : unpackUint32 ([type] ++ fillUint32 addr.toNat ++
      fillUint32 session ++ fillUint32 size) 5 = session := by
    have h := unpackUint32_append ([type] ++ fillUint32 addr.toNat)
      (fillUint32 size) hsession
    simpa only [List.append_assoc, List.length_append, length_fillUint32,
      List.length_singleton] using h
  have hsz : unpackUint32 ([type] ++ fillUint32 addr.toNat ++
      fillUint32 session ++ fillUint32 size) 9 = size := by
    have h := unpackUint32_append
      ([type] ++ fillUint32 addr.toNat ++ fillUint32 session) [] hsize
    simpa only [List.append_assoc, List.length_append, length_fillUint32,
      List.length_singleton, List.append_nil] using h
  have hlen : ([type] ++ fillUint32 addr.toNat ++ fillUint32 session ++
      fillUint32 size).length = 13 := by
    simp only [List.length_append, length_fillUint32, List.length_singleton]
  have hunpack : unpackrequest ([type] ++ fillUint32 addr.toNat ++
      fillUint32 session ++ fillUint32 size) =
        unpackmreqNumber ([type] ++ fillUint32 addr.toNat ++
          fillUint32 session ++ fillUint32 size) isPush := by
    subst htype
    cases isPush
    · rfl
    · rfl
  rw [hunpack, unpackmreqNumber, if_neg (not_not.mpr hlen), haddr, hsess, hsz,
    BitVec.ofNat_toNat, BitVec.setWidth_eq]

theorem unpackmreqPart_eq
    (hsession : session < 2 ^ 32) (part : Bool × List UInt8) :
    unpackrequest ([if part.1 then 2 else 3] ++ fillUint32 session ++
        part.2) =
      .ok (.request none session (some part.2) part.2.length part.1
        false) := by
  obtain ⟨more, bytes⟩ := part
  dsimp only
  obtain ⟨type, htype⟩ :
      ∃ type : UInt8, (if more then 2 else 3) = type := ⟨_, rfl⟩
  rw [htype]
  have hsess : unpackUint32 ([type] ++ fillUint32 session ++ bytes) 1 =
      session := by
    have h := unpackUint32_append [type] bytes hsession
    simpa only [List.append_assoc, List.length_singleton] using h
  have hlen : ([type] ++ fillUint32 session ++ bytes).length =
      5 + bytes.length := by
    simp only [List.length_append, length_fillUint32, List.length_singleton]
  have hdrop : ([type] ++ fillUint32 session ++ bytes).drop 5 = bytes :=
    List.drop_left' (by simp only [List.length_append, length_fillUint32,
      List.length_singleton])
  have hunpack : unpackrequest ([type] ++ fillUint32 session ++ bytes) =
      unpackmreqPart ([type] ++ fillUint32 session ++ bytes) := by
    subst htype
    cases more
    · rfl
    · rfl
  have hpadding : decide (([type] ++ fillUint32 session ++
      bytes).headD 0 = 2) = more := by
    subst htype
    cases more
    · rfl
    · rfl
  rw [hunpack, unpackmreqPart, if_neg (by omega)]
  simp only [hpadding, hsess, hdrop, hlen, Nat.add_sub_cancel_left]

variable {name : List UInt8}

theorem toNat_namelen (h : name.length ≤ 255) :
    (UInt8.ofNat name.length).toNat = name.length := by
  rw [UInt8.toNat_ofNat']
  omega

theorem unpackreqString_eq
    (hname : name.length ≤ 255)
    (hsession : session < 2 ^ 32) (msg : List UInt8) :
    unpackrequest ([0x80, UInt8.ofNat name.length] ++ name ++
        fillUint32 session ++ msg) =
      .ok (.request (some (.name name)) session (some msg) msg.length false
        (session = 0)) := by
  have hsess : unpackUint32 ([0x80, UInt8.ofNat name.length] ++ name ++
      fillUint32 session ++ msg) (name.length + 2) = session := by
    have h := unpackUint32_append ([0x80, UInt8.ofNat name.length] ++ name)
      msg hsession
    rw [List.length_append, Nat.add_comm] at h
    simpa only [List.append_assoc, List.length_cons, List.length_nil] using h
  have hlen : ([0x80, UInt8.ofNat name.length] ++ name ++
      fillUint32 session ++ msg).length = name.length + 6 + msg.length := by
    simp only [List.length_append, length_fillUint32, List.length_cons,
      List.length_nil]
    omega
  have hdrop : ([0x80, UInt8.ofNat name.length] ++ name ++
      fillUint32 session ++ msg).drop (2 + name.length + 4) = msg :=
    List.drop_left' (by simp only [List.length_append, length_fillUint32,
      List.length_cons, List.length_nil])
  have htake : (([0x80, UInt8.ofNat name.length] ++ name ++
      fillUint32 session ++ msg).drop 2).take name.length = name := by
    have h : ([0x80, UInt8.ofNat name.length] ++ name ++
        fillUint32 session ++ msg).drop 2 =
          name ++ (fillUint32 session ++ msg) := by
      simp only [List.append_assoc]
      rfl
    rw [h, List.take_left]
  have hsz : ((([0x80, UInt8.ofNat name.length] ++ name ++
      fillUint32 session ++ msg).drop 1).headD 0).toNat = name.length :=
    toNat_namelen hname
  have hunpack : unpackrequest ([0x80, UInt8.ofNat name.length] ++ name ++
      fillUint32 session ++ msg) =
        unpackreqString ([0x80, UInt8.ofNat name.length] ++ name ++
          fillUint32 session ++ msg) := rfl
  have hrest : name.length + 6 + msg.length - name.length - 6 =
      msg.length := by omega
  rw [hunpack, unpackreqString, if_neg (by omega)]
  simp only [hsz]
  rw [if_neg (by omega), htake, hsess, hdrop, hlen, hrest]

theorem unpackmreqString_eq
    (hname : name.length ≤ 255)
    (hsession : session < 2 ^ 32) (hsize : size < 2 ^ 32) (isPush : Bool) :
    unpackrequest ([if isPush then 0xc1 else 0x81,
        UInt8.ofNat name.length] ++ name ++ fillUint32 session ++
          fillUint32 size) =
      .ok (.request (some (.name name)) session none size true isPush) := by
  obtain ⟨type, htype⟩ :
      ∃ type : UInt8, (if isPush then 0xc1 else 0x81) = type := ⟨_, rfl⟩
  rw [htype]
  have hsess : unpackUint32 ([type, UInt8.ofNat name.length] ++ name ++
      fillUint32 session ++ fillUint32 size) (name.length + 2) =
        session := by
    have h := unpackUint32_append ([type, UInt8.ofNat name.length] ++ name)
      (fillUint32 size) hsession
    rw [List.length_append, Nat.add_comm] at h
    simpa only [List.append_assoc, List.length_cons, List.length_nil] using h
  have hsize' : unpackUint32 ([type, UInt8.ofNat name.length] ++ name ++
      fillUint32 session ++ fillUint32 size) (name.length + 6) = size := by
    have h := unpackUint32_append ([type, UInt8.ofNat name.length] ++ name ++
      fillUint32 session) [] hsize
    have hlen : ([type, UInt8.ofNat name.length] ++ name ++
        fillUint32 session).length = name.length + 6 := by
      simp only [List.length_append, length_fillUint32, List.length_cons,
        List.length_nil]
      omega
    rw [hlen] at h
    simpa only [List.append_assoc, List.append_nil] using h
  have hlen : ([type, UInt8.ofNat name.length] ++ name ++
      fillUint32 session ++ fillUint32 size).length =
        name.length + 10 := by
    simp only [List.length_append, length_fillUint32, List.length_cons,
      List.length_nil]
    omega
  have htake : (([type, UInt8.ofNat name.length] ++ name ++
      fillUint32 session ++ fillUint32 size).drop 2).take name.length =
        name := by
    have h : ([type, UInt8.ofNat name.length] ++ name ++
        fillUint32 session ++ fillUint32 size).drop 2 =
          name ++ (fillUint32 session ++ fillUint32 size) := by
      simp only [List.append_assoc]
      rfl
    rw [h, List.take_left]
  have hsz : ((([type, UInt8.ofNat name.length] ++ name ++
      fillUint32 session ++ fillUint32 size).drop 1).headD 0).toNat =
        name.length :=
    toNat_namelen hname
  have hunpack : unpackrequest ([type, UInt8.ofNat name.length] ++ name ++
      fillUint32 session ++ fillUint32 size) =
        unpackmreqString ([type, UInt8.ofNat name.length] ++ name ++
          fillUint32 session ++ fillUint32 size) isPush := by
    subst htype
    cases isPush
    · rfl
    · rfl
  rw [hunpack, unpackmreqString, if_neg (by omega)]
  simp only [hsz]
  rw [if_neg (by omega), htake, hsess, hsize']

end Requests

/-! ## Parts -/

theorem concatFrom_cut
    {limit : ℕ} {data : List UInt8} {parts : List (Bool × List UInt8)}
    (h : Parts.Cut limit data parts) {sz : ℕ} (buff : List UInt8)
    (hsz : buff.length + data.length = sz) :
    concatFrom sz (parts.map fun p => .msg p.2) buff =
      some (buff ++ data) := by
  induction h generalizing buff with
  | @last data hle =>
      have hfits : ¬ data.length + buff.length > sz := by omega
      rw [List.map_singleton, concatFrom, if_neg hfits, concatFrom]
      exact fun _ _ h => (by cases h)
  | @more part rest parts hlen _ ih =>
      rw [List.length_append] at hsz
      have hfits : ¬ part.length + buff.length > sz := by omega
      rw [List.map_cons, concatFrom, if_neg hfits,
        ih (buff ++ part) (by rw [List.length_append]; omega),
        List.append_assoc]

/-- The parts of the data behind its size are put together again. -/
theorem concat_cut
    {limit : ℕ} {data : List UInt8} {parts : List (Bool × List UInt8)}
    (h : Parts.Cut limit data parts) (hlen : data.length < 2 ^ 31) :
    concat (.size data.length :: parts.map fun p => .msg p.2) =
      some data := by
  rw [concat, if_pos hlen, concatFrom_cut h [] (Nat.zero_add _),
    List.nil_append]
  exact Option.filter_some_pos (decide_eq_true rfl)

end SkynetServer.Cluster
