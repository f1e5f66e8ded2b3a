import SkynetServer.Bson.Unpack

/-!
# What the bytes of a document say

A document is read off its bytes, without pointers.  Where an embedded length
is too small for a field of its kind, or too large for the sum that the code
forms with it, the document has no meaning.
-/

namespace SkynetServer.Bson

open Logged

/-- A value, usually with the bytes that follow it. -/
abbrev Parse := Except (Stop Failure)

namespace Parse

variable {α : Type}

def raised : Parse α := .error (.fails .raised)

def breaks : Parse α := .error .breaks

end Parse

open Parse

def takeBytes (n : ℕ) (bs : List UInt8) : Parse (List UInt8 × List UInt8) :=
  if bs.length < n then raised else .ok (bs.take n, bs.drop n)

def takeNumber (n : ℕ) (bs : List UInt8) : Parse (ℕ × List UInt8) := do
  let (s, bs) ← takeBytes n bs
  pure (LittleEndian.number s, bs)

def takeByte (bs : List UInt8) : Parse (UInt8 × List UInt8) := do
  let (v, bs) ← takeNumber 1 bs
  pure (.ofNat v, bs)

def takeInt32 (bs : List UInt8) : Parse (BitVec 32 × List UInt8) := do
  let (v, bs) ← takeNumber 4 bs
  pure (.ofNat 32 v, bs)

def takeInt64 (bs : List UInt8) : Parse (BitVec 64 × List UInt8) := do
  let (v, bs) ← takeNumber 8 bs
  pure (.ofNat 64 v, bs)

/-- The bytes up to a zero byte. -/
def takeCstring : List UInt8 → Parse (List UInt8 × List UInt8)
  | [] => raised
  | b :: bs =>
    if b = 0 then .ok ([], bs)
    else do
      let (s, bs) ← takeCstring bs
      pure (b :: s, bs)

/-- The smallest embedded length of a field. -/
def minimum : BsonType → ℤ
  | .document | .array => 5
  | .codews => 4
  | .dbpointer => -12
  | _ => 0

/-- The embedded length suits the field. -/
def Fits (t : BsonType) (sz : ℤ) : Prop :=
  minimum t ≤ sz ∧ (t = .dbpointer → sz + 12 < 0x80000000)

instance (t : BsonType) (sz : ℤ) : Decidable (Fits t sz) :=
  inferInstanceAs (Decidable (_ ∧ _))

def parseAtom (bt : BsonType) (bs : List UInt8) : Parse (Value × List UInt8) :=
  match bt with
  | .real => do
    let (v, bs) ← takeInt64 bs
    pure (.real v, bs)
  | .boolean => do
    let (v, bs) ← takeByte bs
    pure (.boolean (v ≠ 0), bs)
  | .string => do
    let (sz, bs) ← takeInt32 bs
    if sz.toInt ≤ 0 then raised
    else
      let (s, bs) ← takeBytes sz.toInt.toNat bs
      pure (.string s.dropLast, bs)
  | .binary => do
    let (sz, bs) ← takeInt32 bs
    let (subtype, bs) ← takeByte bs
    if ¬Fits .binary sz.toInt then breaks
    else
      let (s, bs) ← takeBytes sz.toInt.toNat bs
      pure (.string (0 :: BsonType.binary.code :: subtype :: s), bs)
  | .objectid => do
    let (s, bs) ← takeBytes 12 bs
    pure (.string (0 :: BsonType.objectid.code :: s), bs)
  | .date => do
    let (date, bs) ← takeInt64 bs
    let v := BitVec.ofInt 32 (date.toInt.tdiv 1000)
    pure
      (.string (0 :: BsonType.date.code :: LittleEndian.bytes 4 v.toNat), bs)
  | .minkey => pure (.string [0, BsonType.minkey.code], bs)
  | .maxkey => pure (.string [0, BsonType.maxkey.code], bs)
  | .null => pure (.string [0, BsonType.null.code], bs)
  | .regex => do
    let (r1, bs) ← takeCstring bs
    let (r2, bs) ← takeCstring bs
    pure (.string (0 :: BsonType.regex.code :: r1 ++ 0 :: r2 ++ [0]), bs)
  | .int32 => do
    let (v, bs) ← takeInt32 bs
    pure (.integer (v.signExtend 64), bs)
  | .timestamp => do
    let (inc, bs) ← takeInt32 bs
    let (ts, bs) ← takeInt32 bs
    pure
      (.string
        (0 :: BsonType.timestamp.code ::
          (LittleEndian.bytes 4 inc.toNat ++ LittleEndian.bytes 4 ts.toNat)),
        bs)
  | .int64 => do
    let (v, bs) ← takeInt64 bs
    pure (.integer v, bs)
  | .dbpointer => do
    let (sz, rest) ← takeInt32 bs
    if ¬Fits .dbpointer sz.toInt then breaks
    else
      let (_, rest) ← takeBytes (sz.toInt + 12).toNat rest
      pure
        (.string (0 :: BsonType.dbpointer.code ::
          bs.take (sz.toInt + 16).toNat), rest)
  | .jscode | .symbol => do
    let (sz, rest) ← takeInt32 bs
    if ¬Fits bt sz.toInt then breaks
    else
      let (_, rest) ← takeBytes sz.toInt.toNat rest
      pure (.string (0 :: bt.code :: bs.take (sz.toInt + 4).toNat), rest)
  | .codews => do
    let (sz, rest) ← takeInt32 bs
    if ¬Fits .codews sz.toInt then breaks
    else
      let (_, rest) ← takeBytes (sz.toInt - 4).toNat rest
      pure
        (.string (0 :: BsonType.codews.code :: bs.take sz.toInt.toNat), rest)
  | .document | .array => raised

def parseValue
    (dict : List UInt8 → Bool → Parse (Value × List UInt8)) (bt : BsonType)
    (bs : List UInt8) : Parse (Value × List UInt8) :=
  match bt with
  | .document => dict bs false
  | .array => dict bs true
  | bt => parseAtom bt bs

mutual

def parseDict : ℕ → List UInt8 → Bool → Parse (Value × List UInt8)
  | 0, _, _ => .error (.fails .exhausted)
  | fuel + 1, bs, array => do
    let (sz, bs) ← takeInt32 bs
    if ¬Fits .document sz.toInt then breaks
    else
      let (block, bs) ← takeBytes (sz.toInt - 5).toNat bs
      let (last, bs) ← takeByte bs
      if last ≠ 0 then raised
      else
        let es ← parseFields fuel block array []
        pure (.table 0 es, bs)

def parseFields :
    ℕ → List UInt8 → Bool → Entries → Parse Entries
  | 0, _, _, _ => .error (.fails .exhausted)
  | fuel + 1, bs, array, es =>
    if bs = [] then pure es
    else do
      let (bt, bs) ← takeByte bs
      let (key, bs) ← takeCstring bs
      let k := if array then Key.integer (arrayIndex key) else .string key
      match BsonType.ofCode bt with
      | none => raised
      | some bt =>
        let (v, bs) ←
          parseValue (fun bs array => parseDict fuel bs array) bt bs
        parseFields fuel bs array (rawset es k v)

end

/-! ## A reader and its bytes -/

/-- The reader `r'` is inside the block of `r`. -/
structure Reader.Within (r' r : Reader) : Prop where
  start : r.ptr ≤ r'.ptr
  size : 0 ≤ r'.size
  stop : r'.ptr + r'.size ≤ r.ptr + r.size

/-- The event stays inside the document, of the bytes from 0 to `len`. -/
def Fine (len : ℤ) : Event → Prop
  | .load p n => 0 ≤ p ∧ 0 ≤ n ∧ p + n ≤ len
  | .move before after => after.Within before
  | .overflow => False

/-- The reader has the bytes before it, inside the document. -/
structure Holds
    (m : ℤ → UInt8) (len : ℤ) (r : Reader) (bs : List UInt8) : Prop where
  size : r.size = bs.length
  start : 0 ≤ r.ptr
  stop : r.ptr + r.size ≤ len
  bytes : bytesAt m r.ptr bs.length = bs

/-- A value was read, and the reader is before the bytes that follow. -/
def Reads {α : Type} (m : ℤ → UInt8) (len : ℤ)
    (b : α × List UInt8) (a : α × Reader) : Prop :=
  b.1 = a.1 ∧ Holds m len a.2 b.2

section Refinement

variable {m : ℤ → UInt8} {len : ℤ} {r : Reader} {bs : List UInt8}

theorem bytesAt_add (p : ℤ) (n k : ℕ) :
    bytesAt m p (n + k) = bytesAt m p n ++ bytesAt m (p + n) k := by
  induction n generalizing p with
  | zero => simp [bytesAt]
  | succ n ih =>
      have hnext : p + (n + 1 : ℕ) = p + 1 + n := by omega
      rw [Nat.succ_add, bytesAt, bytesAt, ih, List.cons_append, hnext]

@[simp] theorem length_bytesAt (p : ℤ) (n : ℕ) :
    (bytesAt m p n).length = n := by
  induction n generalizing p with
  | zero => rfl
  | succ n ih => rw [bytesAt, List.length_cons, ih]

namespace Holds

/-- The bytes of a reader in two parts. -/
theorem split (h : Holds m len r bs) {n : ℕ} (hn : n ≤ bs.length) :
    Holds m len ⟨r.ptr, n⟩ (bs.take n) ∧
      Holds m len ⟨r.ptr + n, r.size - n⟩ (bs.drop n) := by
  obtain ⟨hsize, hstart, hstop, hbytes⟩ := h
  obtain ⟨k, hk⟩ := Nat.exists_eq_add_of_le hn
  have hparts : bytesAt m r.ptr n ++ bytesAt m (r.ptr + n) k = bs := by
    rw [← bytesAt_add, ← hk, hbytes]
  have htake : bs.take n = bytesAt m r.ptr n := by
    rw [← hparts]
    exact List.take_left' (length_bytesAt _ _)
  have hdrop : bs.drop n = bytesAt m (r.ptr + n) k := by
    rw [← hparts]
    exact List.drop_left' (length_bytesAt _ _)
  rw [htake, hdrop]
  refine ⟨⟨?_, hstart, ?_, ?_⟩, ⟨?_, ?_, ?_, ?_⟩⟩
  · rw [length_bytesAt]
  · show r.ptr + n ≤ len
    omega
  · rw [length_bytesAt]
  · show r.size - n = _
    rw [length_bytesAt]
    omega
  · show 0 ≤ r.ptr + n
    omega
  · show r.ptr + n + (r.size - n) ≤ len
    omega
  · rw [length_bytesAt]

theorem load (h : Holds m len r bs) {n : ℤ} (hn : n = bs.length) :
    Matches (Fine len) (fun b a => b = a) (load m r.ptr n) (.ok bs) := by
  have hstop := h.stop
  rw [h.size] at hstop
  have hfine : Fine len (.load r.ptr n) := ⟨h.start, by omega, by omega⟩
  refine Matches.note_bind hfine (Matches.pure ?_)
  rw [hn, Int.toNat_natCast, h.bytes]

end Holds

/-- What fits into the document is a value of an `int`. -/
theorem int_matches {x : ℤ} (hlow : -0x80000000 ≤ x) (hhigh : x < 0x80000000) :
    Matches (Fine len) (fun b a => b = a) (int x) (.ok x) := by
  rw [int, if_pos ⟨hlow, hhigh⟩]
  exact Matches.pure rfl

theorem int_breaks {x : ℤ} (hx : ¬(-0x80000000 ≤ x ∧ x < 0x80000000)) :
    Breaks (Fine len) (int x) := by
  rw [int, if_neg hx]
  exact (breaks_note id).bind _

/-- `check_reader` and the bytes that are left. -/
theorem Holds.checkReader (h : Holds m len r bs) (n : ℕ) :
    Matches (Fine len) (fun b _ => b = (bs.take n, bs.drop n) ∧ n ≤ bs.length)
      (checkReader r n) (takeBytes n bs) := by
  rw [Bson.checkReader, takeBytes, h.size]
  by_cases hn : bs.length < n
  · rw [if_pos hn, if_pos (by omega)]
    exact Matches.fail _
  · rw [if_neg hn, if_neg (by omega)]
    exact Matches.pure ⟨rfl, by omega⟩

/-- A negative number of bytes moves the reader back. -/
theorem advance_breaks {sz : ℤ} (hsz : sz < 0) :
    Breaks (Fine len) (advance r sz) := by
  rw [advance]
  by_cases hx : -0x80000000 ≤ r.size - sz ∧ r.size - sz < 0x80000000
  · rw [int, if_pos hx, Run.pure_bind]
    refine Breaks.bind (breaks_note fun hwithin => ?_) _
    have hback : r.ptr ≤ r.ptr + sz := hwithin.start
    omega
  · exact (int_breaks hx).bind _

theorem Holds.readBytes_breaks
    (h : Holds m len r bs) {sz : ℤ} (hsz : sz < 0) :
    Breaks (Fine len) (Bson.readBytes r sz) := by
  have hsize := h.size
  rw [Bson.readBytes, Bson.checkReader, if_neg (by omega), Run.pure_bind]
  exact (advance_breaks hsz).bind _

theorem Holds.cstring (h : Holds m len r bs) :
    Matches (Fine len) (fun b s => b.1 = s ∧ bs = s ++ 0 :: b.2)
      (cstring m r.ptr bs.length) (takeCstring bs) := by
  induction bs generalizing r with
  | nil => exact Matches.fail _
  | cons b bs ih =>
      have hparts := h.split (n := 1) (by simp)
      have hbyte : m r.ptr = b := by
        have hbytes := h.bytes
        rw [List.length_cons, bytesAt, List.cons.injEq] at hbytes
        exact hbytes.1
      have hstop := h.stop
      rw [h.size, List.length_cons] at hstop
      have hfine : Fine len (.load r.ptr 1) := ⟨h.start, by omega, by omega⟩
      rw [takeCstring, List.length_cons, Bson.cstring, hbyte]
      refine Matches.note_bind hfine ?_
      by_cases hb : b = 0
      · rw [if_pos hb, if_pos hb, hb]
        exact Matches.pure ⟨rfl, rfl⟩
      · rw [if_neg hb, if_neg hb]
        refine (ih hparts.2).bind ?_
        rintro ⟨s, rest⟩ s' ⟨rfl, hrest⟩
        refine Matches.pure ⟨rfl, ?_⟩
        rw [hrest]
        rfl

theorem Holds.addlstring (h : Holds m len r bs) {n : ℤ} (hn : n = bs.length) :
    Matches (Fine len) (fun b a => b = a) (addlstring m r.ptr n) (.ok bs) := by
  rw [Bson.addlstring, if_neg (by omega)]
  exact h.load hn

theorem Holds.makeObject
    (h : Holds m len r bs) (t : BsonType) {n : ℤ} (hn : n = bs.length) :
    Matches (Fine len) (fun b a => b = a) (makeObject m t r.ptr n)
      (.ok (.string (0 :: t.code :: bs))) := by
  refine (h.addlstring hn).ok_bind ?_
  rintro s rfl
  exact Matches.pure rfl

theorem takeInt32_spec (b : BitVec 32 × List UInt8) (h : takeInt32 bs = .ok b) :
    b.2 = bs.drop 4 ∧ 4 ≤ bs.length := by
  rw [takeInt32, takeNumber, takeBytes] at h
  split at h
  · cases h
  · cases h
    exact ⟨rfl, by omega⟩

/-- A length and the bytes that it counts. -/
theorem Holds.front
    (h : Holds m len r bs) {n : ℤ} {s rest : List UInt8}
    (hn : (s.length : ℤ) = n) (hdrop : bs.drop 4 = s ++ rest)
    (hfour : 4 ≤ bs.length) :
    Holds m len ⟨r.ptr, n + 4⟩ (bs.take (n + 4).toNat) ∧
      n + 4 = (bs.take (n + 4).toNat).length ∧ n + 4 ≤ len := by
  have hlength := congrArg List.length hdrop
  rw [List.length_drop, List.length_append] at hlength
  have hsize := h.size
  have hstart := h.start
  have hstop := h.stop
  have hfront := (h.split (n := (n + 4).toNat) (by omega)).1
  rw [Int.toNat_of_nonneg (by omega)] at hfront
  refine ⟨hfront, ?_, by omega⟩
  rw [List.length_take]
  omega

section Readers

variable (hlen : len < 0x80000000)

include hlen

theorem Holds.advance (h : Holds m len r bs) {n : ℕ} (hn : n ≤ bs.length) :
    Matches (Fine len) (fun bs r => Holds m len r bs) (advance r n)
      (.ok (bs.drop n)) := by
  obtain ⟨hsize, hstart, hstop, -⟩ := id h
  refine (int_matches ?_ ?_).ok_bind fun size hsize' => ?_
  · omega
  · omega
  · subst hsize'
    refine Matches.note_bind ?_ (Matches.pure (h.split hn).2)
    refine ⟨?_, ?_, ?_⟩
    · show r.ptr ≤ r.ptr + n
      omega
    · show 0 ≤ r.size - n
      omega
    · show r.ptr + n + (r.size - n) ≤ r.ptr + r.size
      omega

theorem Holds.readNumber (h : Holds m len r bs) (n : ℕ) :
    Matches (Fine len) (Reads m len) (readNumber m r n) (takeNumber n bs) := by
  refine (h.checkReader n).bind fun b _ hb => ?_
  obtain ⟨rfl, hn⟩ := hb
  have hpart := (h.split hn).1
  have hlength : (n : ℤ) = (bs.take n).length := by
    rw [List.length_take]
    omega
  refine (hpart.load hlength).ok_bind fun s hs => ?_
  refine (h.advance hlen hn).ok_bind fun r' hr' => ?_
  exact Matches.pure ⟨by rw [hs], hr'⟩

theorem Holds.readByte (h : Holds m len r bs) :
    Matches (Fine len) (Reads m len) (readByte m r) (takeByte bs) := by
  refine (h.readNumber hlen 1).bind ?_
  rintro ⟨v, rest⟩ ⟨v', r'⟩ ⟨rfl, hr'⟩
  exact Matches.pure ⟨rfl, hr'⟩

theorem Holds.readInt32 (h : Holds m len r bs) :
    Matches (Fine len) (Reads m len) (readInt32 m r) (takeInt32 bs) := by
  refine (h.readNumber hlen 4).bind ?_
  rintro ⟨v, rest⟩ ⟨v', r'⟩ ⟨rfl, hr'⟩
  exact Matches.pure ⟨rfl, hr'⟩

theorem Holds.readInt64 (h : Holds m len r bs) :
    Matches (Fine len) (Reads m len) (readInt64 m r) (takeInt64 bs) := by
  refine (h.readNumber hlen 8).bind ?_
  rintro ⟨v, rest⟩ ⟨v', r'⟩ ⟨rfl, hr'⟩
  exact Matches.pure ⟨rfl, hr'⟩

/-- The pointer that `read_bytes` returns has the bytes before it. -/
theorem Holds.readBytes (h : Holds m len r bs) {sz : ℤ} (hsz : 0 ≤ sz) :
    Matches (Fine len)
      (fun b a => Holds m len ⟨a.1, sz⟩ b.1 ∧ Holds m len a.2 b.2 ∧
        a.1 = r.ptr ∧ b.1.length = sz ∧ bs = b.1 ++ b.2)
      (readBytes r sz) (takeBytes sz.toNat bs) := by
  obtain ⟨n, rfl⟩ := Int.eq_ofNat_of_zero_le hsz
  rw [Int.toNat_natCast, ← bind_pure (takeBytes n bs)]
  refine (h.checkReader n).bind fun b _ hb => ?_
  obtain ⟨rfl, hn⟩ := hb
  refine (h.advance hlen hn).ok_bind fun r' hr' => ?_
  refine Matches.pure ⟨(h.split hn).1, hr', rfl, ?_, ?_⟩
  · rw [List.length_take]
    omega
  · exact (List.take_append_drop n bs).symm

theorem Holds.readCstring (h : Holds m len r bs) :
    Matches (Fine len) (Reads m len) (readCstring m r) (takeCstring bs) := by
  rw [← bind_pure (takeCstring bs), Bson.readCstring, h.size, Int.toNat_natCast]
  refine h.cstring.bind ?_
  rintro ⟨s, rest⟩ s' ⟨rfl, hrest⟩
  have hn : s.length + 1 ≤ bs.length := by
    rw [hrest]
    simp
  refine (h.advance hlen hn).ok_bind fun r' hr' => ?_
  refine Matches.pure ⟨rfl, ?_⟩
  have hdrop : bs.drop (s.length + 1) = rest := by
    rw [hrest, List.drop_append]
    simp
  rwa [hdrop] at hr'

/-- A string with its length, as it stands in the document. -/
theorem Holds.object
    {r' : Reader} (h : Holds m len r bs) (hr' : Holds m len r' (bs.drop 4))
    (hfour : 4 ≤ bs.length) (t : BsonType) {n total : ℤ} {check : Run ℤ}
    (hn : 0 ≤ n) (htotal : total = n + 4)
    (hcheck : total ≤ len →
      Matches (Fine len) (fun b a => b = a) check (.ok total)) :
    Matches (Fine len) (Reads m len)
      (Bson.readBytes r' n >>= fun x => check >>= fun len =>
        Bson.makeObject m t r.ptr len >>= fun v => pure (v, x.2))
      (takeBytes n.toNat (bs.drop 4) >>= fun x =>
        pure (.string (0 :: t.code :: bs.take total.toNat), x.2)) := by
  refine (hr'.readBytes hlen hn).bind ?_
  rintro ⟨s, rest⟩ ⟨p, r''⟩ ⟨-, hr'', -, hlength, hdrop⟩
  obtain ⟨hfront, hfit, hle⟩ := h.front hlength hdrop hfour
  rw [← htotal] at hfront hfit hle
  refine (hcheck hle).ok_bind ?_
  rintro total' rfl
  refine (hfront.makeObject t hfit).ok_bind ?_
  rintro v rfl
  exact Matches.pure ⟨rfl, hr''⟩

/-- `case BSON_JSCODE` and `case BSON_SYMBOL` -/
theorem Holds.code
    (h : Holds m len r bs) (t : BsonType) (ht : t = .jscode ∨ t = .symbol) :
    Matches (Fine len) (Reads m len) (unpackAtom m t r) (parseAtom t bs) := by
  have hcode : Matches (Fine len) (Reads m len)
      (Bson.readInt32 m r >>= fun x =>
        Bson.readBytes x.2 x.1.toInt >>= fun y =>
          int (x.1.toInt + 4) >>= fun n =>
            Bson.makeObject m t r.ptr n >>= fun v => pure (v, y.2))
      (takeInt32 bs >>= fun x =>
        if ¬Fits t x.1.toInt then breaks
        else
          takeBytes x.1.toInt.toNat x.2 >>= fun y =>
            pure (.string
              (0 :: t.code :: bs.take (x.1.toInt + 4).toNat), y.2)) := by
    have hmin : minimum t = 0 := by
      rcases ht with rfl | rfl <;> rfl
    refine ((h.readInt32 hlen).and_spec takeInt32_spec).bind ?_
    rintro ⟨sz, rest⟩ ⟨sz', r'⟩ ⟨⟨rfl, hr'⟩, rfl, hfour⟩
    dsimp only at hr' hfour ⊢
    split
    · rename_i hfits
      refine (hr'.readBytes_breaks ?_).bind _
      by_contra hsz
      refine hfits ⟨by omega, ?_⟩
      rcases ht with rfl | rfl <;> exact fun ht => by cases ht
    · rename_i hfits
      have hlow := (not_not.mp hfits).1
      exact h.object hlen hr' hfour t (by omega) rfl
        fun hfit => int_matches (by omega) (by omega)
  rcases ht with rfl | rfl <;> exact hcode

theorem Holds.unpackAtom (h : Holds m len r bs) (bt : BsonType) :
    Matches (Fine len) (Reads m len) (unpackAtom m bt r) (parseAtom bt bs) := by
  cases bt with
  | real | date | int64 =>
      refine (h.readInt64 hlen).bind ?_
      rintro ⟨v, rest⟩ ⟨v', r'⟩ ⟨rfl, hr'⟩
      exact Matches.pure ⟨rfl, hr'⟩
  | string =>
      refine (h.readInt32 hlen).bind ?_
      rintro ⟨sz, rest⟩ ⟨sz', r'⟩ ⟨rfl, hr'⟩
      dsimp only
      split
      · exact Matches.fail _
      · rename_i hsz
        refine (hr'.readBytes hlen (by omega)).bind ?_
        rintro ⟨s, rest'⟩ ⟨p, r''⟩ ⟨hs, hr'', rfl, hlength, -⟩
        dsimp only at hs hlength
        have hlast := (hs.split (n := s.length - 1) (by omega)).1
        rw [← List.dropLast_eq_take] at hlast
        refine (hlast.load (n := sz.toInt - 1) ?_).ok_bind ?_
        · rw [List.length_dropLast]
          omega
        · rintro s' rfl
          exact Matches.pure ⟨rfl, hr''⟩
  | document | array => exact Matches.fail _
  | binary =>
      refine (h.readInt32 hlen).bind ?_
      rintro ⟨sz, rest⟩ ⟨sz', r'⟩ ⟨rfl, hr'⟩
      refine (hr'.readByte hlen).bind ?_
      rintro ⟨subtype, rest⟩ ⟨subtype', r'⟩ ⟨rfl, hr'⟩
      dsimp only
      split
      · rename_i hfits
        refine (hr'.readBytes_breaks ?_).bind _
        by_contra hsz
        have hmin : (0 : ℤ) ≤ sz.toInt := by omega
        exact hfits ⟨hmin, fun ht => by cases ht⟩
      · rename_i hfits
        have hsz : 0 ≤ sz.toInt := (not_not.mp hfits).1
        refine (hr'.readBytes hlen hsz).bind ?_
        rintro ⟨s, rest'⟩ ⟨p, r''⟩ ⟨hs, hr'', rfl, hlength, -⟩
        refine (hs.addlstring hlength.symm).ok_bind ?_
        rintro s' rfl
        exact Matches.pure ⟨rfl, hr''⟩
  | objectid =>
      have htwelve : (0 : ℤ) ≤ 12 := by omega
      refine (h.readBytes hlen htwelve).bind ?_
      rintro ⟨s, rest⟩ ⟨p, r'⟩ ⟨hs, hr', rfl, hlength, -⟩
      refine (hs.makeObject .objectid hlength.symm).ok_bind ?_
      rintro v rfl
      exact Matches.pure ⟨rfl, hr'⟩
  | boolean =>
      refine (h.readByte hlen).bind ?_
      rintro ⟨v, rest⟩ ⟨v', r'⟩ ⟨rfl, hr'⟩
      exact Matches.pure ⟨rfl, hr'⟩
  | null | minkey | maxkey => exact Matches.pure ⟨rfl, h⟩
  | regex =>
      refine (h.readCstring hlen).bind ?_
      rintro ⟨r1, rest⟩ ⟨r1', r'⟩ ⟨rfl, hr'⟩
      refine (hr'.readCstring hlen).bind ?_
      rintro ⟨r2, rest⟩ ⟨r2', r'⟩ ⟨rfl, hr'⟩
      exact Matches.pure ⟨rfl, hr'⟩
  | dbpointer =>
      refine ((h.readInt32 hlen).and_spec takeInt32_spec).bind ?_
      rintro ⟨sz, rest⟩ ⟨sz', r'⟩ ⟨⟨rfl, hr'⟩, rfl, hfour⟩
      dsimp only at hr' hfour ⊢
      split
      · rename_i hfits
        by_cases hsz : 0 ≤ sz.toInt + 12
        · refine (int_breaks fun hrange => hfits ⟨?_, fun _ => hrange.2⟩).bind _
          show -12 ≤ sz.toInt
          omega
        · refine (int_matches ?_ ?_).ok_bind ?_
          · have hlow := BitVec.le_toInt sz
            omega
          · omega
          · rintro n rfl
            exact (hr'.readBytes_breaks (by omega)).bind _
      · rename_i hfits
        obtain ⟨hlow, hhigh⟩ := not_not.mp hfits
        have hmin : -12 ≤ sz.toInt := hlow
        refine (int_matches (by omega) (hhigh rfl)).ok_bind ?_
        rintro n rfl
        exact h.object hlen hr' hfour .dbpointer (by omega) (by omega)
          fun hfit => int_matches (by omega) (by omega)
  | jscode => exact h.code hlen .jscode (Or.inl rfl)
  | symbol => exact h.code hlen .symbol (Or.inr rfl)
  | codews =>
      refine ((h.readInt32 hlen).and_spec takeInt32_spec).bind ?_
      rintro ⟨sz, rest⟩ ⟨sz', r'⟩ ⟨⟨rfl, hr'⟩, rfl, hfour⟩
      dsimp only at hr' hfour ⊢
      split
      · rename_i hfits
        by_cases hsz : -0x80000000 ≤ sz.toInt - 4
        · refine (int_matches hsz ?_).ok_bind ?_
          · have hhigh := BitVec.toInt_lt (x := sz)
            omega
          · rintro n rfl
            refine (hr'.readBytes_breaks ?_).bind _
            by_contra hfour
            have hmin : (4 : ℤ) ≤ sz.toInt := by omega
            exact hfits ⟨hmin, fun ht => by cases ht⟩
        · exact (int_breaks fun hrange => hsz hrange.1).bind _
      · rename_i hfits
        have hmin : (4 : ℤ) ≤ sz.toInt := (not_not.mp hfits).1
        refine (int_matches (by omega) ?_).ok_bind ?_
        · have hhigh := BitVec.toInt_lt (x := sz)
          omega
        · rintro n rfl
          exact h.object hlen hr' hfour .codews (by omega) (by omega)
            fun _ => Matches.pure rfl
  | int32 =>
      refine (h.readInt32 hlen).bind ?_
      rintro ⟨v, rest⟩ ⟨v', r'⟩ ⟨rfl, hr'⟩
      exact Matches.pure ⟨rfl, hr'⟩
  | timestamp =>
      refine (h.readInt32 hlen).bind ?_
      rintro ⟨inc, rest⟩ ⟨inc', r'⟩ ⟨rfl, hr'⟩
      refine (hr'.readInt32 hlen).bind ?_
      rintro ⟨ts, rest⟩ ⟨ts', r'⟩ ⟨rfl, hr'⟩
      exact Matches.pure ⟨rfl, hr'⟩

theorem Holds.unpackValue
    (h : Holds m len r bs) (bt : BsonType)
    {dict : Reader → Bool → Run (Value × Reader)}
    {dict' : List UInt8 → Bool → Parse (Value × List UInt8)}
    (hdict : ∀ array,
      Matches (Fine len) (Reads m len) (dict r array) (dict' bs array)) :
    Matches (Fine len) (Reads m len) (unpackValue m dict bt r)
      (parseValue dict' bt bs) := by
  have hatom := h.unpackAtom hlen bt
  cases bt with
  | document => exact hdict false
  | array => exact hdict true
  | _ => exact hatom

end Readers

end Refinement

end SkynetServer.Bson
