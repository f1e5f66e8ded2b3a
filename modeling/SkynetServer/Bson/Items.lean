import SkynetServer.Bson.Encode
import SkynetServer.Bson.Safety
import SkynetServer.Support.Integers

/-!
# Fields that are written and read back

What the functions of the encoder append to the buffer, and what decoding reads
from the same bytes.
-/

namespace SkynetServer.Bson

open Parse Integers

/-! ## What the encoder appends -/

/-- `added` was appended to a buffer. -/
structure Adds (b b' : Buffer) (added : List UInt8) : Prop where
  bytes : b'.bytes = b.bytes ++ added
  fits : b'.bytes.length ≤ b'.cap
  cap : b'.cap < 0x80000000

/-- The bytes fit into the buffer, and its size is an `int`. -/
structure Buffer.Valid (b : Buffer) : Prop where
  fits : b.bytes.length ≤ b.cap
  cap : b.cap < 0x80000000

theorem Buffer.valid_create : Buffer.create.Valid := ⟨by decide, by decide⟩

section Adds

variable {b b' b'' : Buffer} {added added' : List UInt8}

theorem Adds.valid (h : Adds b b' added) : b'.Valid := ⟨h.fits, h.cap⟩

theorem Adds.trans (h : Adds b b' added) (h' : Adds b' b'' added') :
    Adds b b'' (added ++ added') :=
  ⟨by rw [h'.bytes, h.bytes, List.append_assoc], h'.fits, h'.cap⟩

theorem Buffer.Valid.refl (h : b.Valid) : Adds b b [] :=
  ⟨(List.append_nil _).symm, h.fits, h.cap⟩

theorem ok_bind
    {ε α β : Type} {x : Except ε α} {f : α → Except ε β} {c : β}
    (h : x >>= f = .ok c) : ∃ a, x = .ok a ∧ f a = .ok c := by
  cases x with
  | ok a => exact ⟨a, rfl, h⟩
  | error e => cases h

theorem enlarge_ok
    {need fuel cap cap' : ℕ} (h : Buffer.enlarge need fuel cap = .ok cap') :
    need < cap' ∧ cap' < 0x80000000 := by
  induction fuel generalizing cap with
  | zero => cases h
  | succ fuel ih =>
      rw [Buffer.enlarge] at h
      split at h
      · cases h
      · split at h
        · exact ih h
        · cases h
          omega

theorem reserve_ok
    {sz : ℕ} (hvalid : b.Valid) (h : b.reserve sz = .ok b') :
    b'.bytes = b.bytes ∧ b.bytes.length + sz ≤ b'.cap ∧
      b'.cap < 0x80000000 := by
  rw [Buffer.reserve] at h
  split at h
  · cases h
    exact ⟨rfl, ‹_›, hvalid.cap⟩
  · obtain ⟨cap, hcap, h⟩ := ok_bind h
    cases h
    obtain ⟨hneed, hint⟩ := enlarge_ok hcap
    exact ⟨rfl, hneed.le, hint⟩

theorem write_ok
    {bs : List UInt8} (hvalid : b.Valid) (h : b.write bs = .ok b') :
    Adds b b' bs := by
  obtain ⟨b₁, h₁, h⟩ := ok_bind h
  cases h
  obtain ⟨hbytes, hcap, hint⟩ := reserve_ok hvalid h₁
  refine ⟨by rw [hbytes], ?_, hint⟩
  rw [hbytes, List.length_append]
  exact hcap

theorem writeString_ok
    {key : List UInt8} (hvalid : b.Valid) (h : writeString b key = .ok b') :
    Adds b b' (key ++ [0]) := by
  obtain ⟨b₁, h₁, h⟩ := ok_bind h
  obtain ⟨hbytes, hcap, hint⟩ := reserve_ok hvalid h₁
  split at h
  · cases h
    refine ⟨by rw [hbytes], ?_, hint⟩
    rw [hbytes]
    simpa using hcap
  · cases h

theorem appendKey_ok
    {type : UInt8} {key : List UInt8} (hvalid : b.Valid)
    (h : appendKey b type key = .ok b') :
    Adds b b' (type :: (key ++ [0])) := by
  obtain ⟨b₁, h₁, h⟩ := ok_bind h
  have hbyte := write_ok hvalid h₁
  exact hbyte.trans (writeString_ok hbyte.valid h)

/-- A length that is written into its place in front of what was added. -/
theorem Adds.writeLength
    {b₁ : Buffer} {place : List UInt8} (h₁ : Adds b b₁ place)
    (hplace : place.length = 4) (h : Adds b₁ b' added) (v : ℕ) :
    Adds b (b'.writeLength v b.bytes.length)
      (LittleEndian.bytes 4 v ++ added) := by
  have hfour : place.length = (LittleEndian.bytes 4 v).length := by
    rw [hplace, LittleEndian.length_bytes]
  have hbytes : (b'.writeLength v b.bytes.length).bytes =
      b.bytes ++ (LittleEndian.bytes 4 v ++ added) := by
    rw [Buffer.writeLength, h.bytes, h₁.bytes, List.append_assoc]
    exact Memory.store_append hfour _ _
  refine ⟨hbytes, ?_, h.cap⟩
  have hlength := h.fits
  rw [h.bytes, h₁.bytes] at hlength
  rw [hbytes]
  simp only [List.length_append] at hlength ⊢
  rw [← hfour]
  show _ ≤ b'.cap
  omega

end Adds

/-! ## What is read back -/

section Reading

variable {rest : List UInt8}

theorem takeBytes_append (s rest : List UInt8) :
    takeBytes s.length (s ++ rest) = .ok (s, rest) := by
  rw [takeBytes, if_neg (by simp), List.take_left, List.drop_left]

theorem takeNumber_bytes (w n : ℕ) (rest : List UInt8) :
    takeNumber w (LittleEndian.bytes w n ++ rest) =
      .ok (n % 256 ^ w, rest) := by
  have htake := takeBytes_append (LittleEndian.bytes w n) rest
  rw [LittleEndian.length_bytes] at htake
  rw [takeNumber, htake, ← LittleEndian.number_bytes]
  rfl

theorem takeByte_cons (v : UInt8) (rest : List UInt8) :
    takeByte (v :: rest) = .ok (v, rest) := by
  have htake := takeBytes_append [v] rest
  rw [List.singleton_append, List.length_singleton] at htake
  rw [takeByte, takeNumber, htake]
  show Except.ok (UInt8.ofNat (v.toNat + 256 * 0), rest) = _
  rw [Nat.mul_zero, Nat.add_zero, UInt8.ofNat_toNat]

theorem ofNat_mod (w n : ℕ) : BitVec.ofNat w (n % 2 ^ w) = .ofNat w n := by
  apply BitVec.eq_of_toNat_eq
  rw [BitVec.toNat_ofNat, BitVec.toNat_ofNat, Nat.mod_mod]

theorem takeInt32_bytes (n : ℕ) (rest : List UInt8) :
    takeInt32 (LittleEndian.bytes 4 n ++ rest) = .ok (.ofNat 32 n, rest) := by
  rw [takeInt32, takeNumber_bytes, ← ofNat_mod 32 n]
  rfl

theorem takeInt64_bytes (n : ℕ) (rest : List UInt8) :
    takeInt64 (LittleEndian.bytes 8 n ++ rest) = .ok (.ofNat 64 n, rest) := by
  rw [takeInt64, takeNumber_bytes, ← ofNat_mod 64 n]
  rfl

theorem takeCstring_append
    {key : List UInt8} (hkey : 0 ∉ key) (rest : List UInt8) :
    takeCstring (key ++ 0 :: rest) = .ok (key, rest) := by
  induction key with
  | nil => rfl
  | cons k key ih =>
      rw [List.mem_cons, not_or] at hkey
      rw [List.cons_append, takeCstring, if_neg (Ne.symm hkey.1), ih hkey.2]
      rfl

end Reading

/-- The bytes are read as the value. -/
def ReadsAs (t : BsonType) (payload : List UInt8) (w : Value) : Prop :=
  ∀ fuel rest, payload.length < fuel →
    parseValue (fun bs array => parseDict fuel bs array) t (payload ++ rest) =
      .ok (w, rest)

section Atoms

theorem readsAs_word (x : BitVec 32) :
    ReadsAs .int32 (LittleEndian.bytes 4 x.toNat)
      (.integer (x.signExtend 64)) := by
  intro fuel rest _
  show (takeInt32 _ >>= fun x => pure (Value.integer (x.1.signExtend 64), x.2))
    = _
  rw [takeInt32_bytes, BitVec.ofNat_toNat, BitVec.setWidth_eq]
  rfl

theorem readsAs_int32
    {i : BitVec 64} (hlow : -0x80000000 ≤ i.toInt)
    (hhigh : i.toInt ≤ 0x7fffffff) :
    ReadsAs .int32 (LittleEndian.bytes 4 (i.setWidth 32).toNat)
      (.integer i) := by
  have hreads := readsAs_word (i.setWidth 32)
  rwa [(Integers.signExtend_setWidth_iff i).mpr ⟨hlow, hhigh⟩] at hreads

theorem readsAs_int64 (i : BitVec 64) :
    ReadsAs .int64 (LittleEndian.bytes 8 i.toNat) (.integer i) := by
  intro fuel rest _
  show (takeInt64 _ >>= fun x => pure (Value.integer x.1, x.2)) = _
  rw [takeInt64_bytes, BitVec.ofNat_toNat, BitVec.setWidth_eq]
  rfl

theorem readsAs_real (bits : BitVec 64) :
    ReadsAs .real (LittleEndian.bytes 8 bits.toNat) (.real bits) := by
  intro fuel rest _
  show (takeInt64 _ >>= fun x => pure (Value.real x.1, x.2)) = _
  rw [takeInt64_bytes, BitVec.ofNat_toNat, BitVec.setWidth_eq]
  rfl

theorem readsAs_boolean (v : Bool) :
    ReadsAs .boolean [if v then 1 else 0] (.boolean v) := by
  intro fuel rest _
  show (takeByte _ >>= fun x => pure (Value.boolean (x.1 ≠ 0), x.2)) = _
  rw [List.singleton_append, takeByte_cons]
  cases v <;> rfl

theorem readsAs_string
    {str : List UInt8} (hlength : str.length + 1 < 0x80000000) :
    ReadsAs .string (LittleEndian.bytes 4 (str.length + 1) ++ (str ++ [0]))
      (.string str) := by
  intro fuel rest _
  have hint := toInt_ofNat_of_lt (w := 32) (n := str.length + 1)
    (by omega)
  rw [Int.natCast_succ] at hint
  have htake := takeBytes_append (str ++ [0]) rest
  rw [List.length_append, List.length_singleton] at htake
  show (takeInt32 _ >>= fun x =>
    if x.1.toInt ≤ 0 then raised
    else
      takeBytes x.1.toInt.toNat x.2 >>= fun y =>
        pure (Value.string y.1.dropLast, y.2)) = _
  rw [List.append_assoc, takeInt32_bytes]
  show (if (BitVec.ofNat 32 (str.length + 1)).toInt ≤ 0 then raised
    else
      takeBytes (BitVec.ofNat 32 (str.length + 1)).toInt.toNat
        (str ++ [0] ++ rest) >>= fun y =>
          pure (Value.string y.1.dropLast, y.2)) = _
  rw [hint, if_neg (by omega)]
  have hnat : ((str.length : ℤ) + 1).toNat = str.length + 1 := by omega
  rw [hnat, htake]
  show Except.ok (Value.string (str ++ [0]).dropLast, rest) = _
  rw [List.dropLast_concat]

end Atoms

/-! ## Fields -/

/-- A field that was written: what is read for its bytes. -/
structure Item where
  key : List UInt8
  type : BsonType
  payload : List UInt8
  value : Value

namespace Item

def bytes (x : Item) : List UInt8 := x.type.code :: (x.key ++ 0 :: x.payload)

structure Good (x : Item) : Prop where
  key : 0 ∉ x.key
  reads : ReadsAs x.type x.payload x.value

/-- The key under which the field is kept. -/
def slot (array : Bool) (x : Item) : Key :=
  if array then .integer (arrayIndex x.key) else .string x.key

end Item

variable {items : List Item}

theorem parseFields_items
    (hitems : ∀ x ∈ items, x.Good) (array : Bool)
    (es : Entries) {fuel : ℕ}
    (hfuel : (items.flatMap Item.bytes).length < fuel) :
    parseFields fuel (items.flatMap Item.bytes) array es =
      .ok (items.foldl (fun es x => rawset es (x.slot array) x.value) es) := by
  induction items generalizing es fuel with
  | nil =>
      cases fuel with
      | zero => exact absurd hfuel (Nat.not_lt_zero _)
      | succ fuel =>
          rw [List.flatMap_nil, parseFields, if_pos rfl]
          rfl
  | cons x items ih =>
      obtain ⟨hx, hitems⟩ := List.forall_mem_cons.mp hitems
      cases fuel with
      | zero => exact absurd hfuel (Nat.not_lt_zero _)
      | succ fuel =>
          have hbytes : (x :: items).flatMap Item.bytes =
              x.type.code ::
                (x.key ++ 0 :: (x.payload ++ items.flatMap Item.bytes)) := by
            simp [Item.bytes]
          rw [hbytes] at hfuel ⊢
          simp only [List.length_cons, List.length_append] at hfuel
          rw [parseFields, if_neg (List.cons_ne_nil _ _), takeByte_cons]
          show (takeCstring _ >>= _) = _
          rw [takeCstring_append hx.key, BsonType.ofCode_code]
          show (parseValue _ x.type _ >>= _) = _
          rw [hx.reads fuel _ (by omega)]
          exact ih hitems _ (by omega)

/-- The bytes of a table. -/
def tableBytes (items : List Item) : List UInt8 :=
  LittleEndian.bytes 4 ((items.flatMap Item.bytes).length + 5) ++
    (items.flatMap Item.bytes ++ [0])

theorem parseDict_items
    (hitems : ∀ x ∈ items, x.Good)
    (hsize : (items.flatMap Item.bytes).length + 5 < 0x80000000) (array : Bool)
    {fuel : ℕ} (hfuel : (tableBytes items).length < fuel) (rest : List UInt8) :
    parseDict fuel (tableBytes items ++ rest) array =
      .ok (.table 0 (items.foldl
        (fun es x => rawset es (x.slot array) x.value) []), rest) := by
  generalize hbytes : items.flatMap Item.bytes = bytes at hsize
  have hint := toInt_ofNat_of_lt (w := 32) (n := bytes.length + 5) (by omega)
  rw [tableBytes, hbytes] at hfuel ⊢
  simp only [List.length_append, LittleEndian.length_bytes,
    List.length_singleton] at hfuel
  obtain ⟨fuel, rfl⟩ := Nat.exists_eq_add_of_le' (Nat.one_le_of_lt hfuel)
  have hfits : Fits .document (bytes.length + 5 : ℕ) := by
    have hmin : (5 : ℤ) ≤ (bytes.length + 5 : ℕ) := by omega
    exact ⟨hmin, fun h => by cases h⟩
  have hnat : ((bytes.length + 5 : ℕ) - 5 : ℤ).toNat = bytes.length := by omega
  have hfuel' : (items.flatMap Item.bytes).length < fuel := by
    rw [hbytes]
    omega
  have hfields := parseFields_items hitems array [] hfuel'
  rw [hbytes] at hfields
  rw [parseDict, List.append_assoc, takeInt32_bytes]
  show (if ¬Fits .document (BitVec.ofNat 32 (bytes.length + 5)).toInt
    then breaks
    else takeBytes ((BitVec.ofNat 32 (bytes.length + 5)).toInt - 5).toNat
      (bytes ++ [0] ++ rest) >>= _) = _
  rw [hint, if_neg (not_not.mpr hfits), hnat, List.append_assoc,
    takeBytes_append]
  show (takeByte ([0] ++ rest) >>= fun x =>
    if x.1 ≠ 0 then raised
    else parseFields fuel bytes array [] >>= fun es =>
      pure (Value.table 0 es, x.2)) = _
  rw [List.singleton_append, takeByte_cons]
  show (parseFields fuel bytes array [] >>= _) = _
  rw [hfields]
  rfl

theorem readsAs_table
    (hitems : ∀ x ∈ items, x.Good)
    (hsize : (items.flatMap Item.bytes).length + 5 < 0x80000000)
    (array : Bool) :
    ReadsAs (if array then .array else .document) (tableBytes items)
      (.table 0 (items.foldl
        (fun es x => rawset es (x.slot array) x.value) [])) := by
  intro fuel rest hfuel
  cases array with
  | false => exact parseDict_items hitems hsize false hfuel rest
  | true => exact parseDict_items hitems hsize true hfuel rest

theorem complete_tableBytes
    (hsize : (items.flatMap Item.bytes).length + 5 < 0x80000000) :
    Complete (tableBytes items) := by
  have hlength : (tableBytes items).length =
      (items.flatMap Item.bytes).length + 5 := by
    simp only [tableBytes, List.length_append, LittleEndian.length_bytes,
      List.length_singleton]
    omega
  have htake : (tableBytes items).take 4 =
      LittleEndian.bytes 4 ((items.flatMap Item.bytes).length + 5) :=
    List.take_left' (LittleEndian.length_bytes _ _)
  constructor
  · omega
  · rw [htake, LittleEndian.number_bytes_of_lt (by omega), toInt_ofNat_of_lt (by omega),
      hlength]

/-- A document of these fields is decoded. -/
theorem ldecode_items
    (hitems : ∀ x ∈ items, x.Good)
    (hsize : (items.flatMap Item.bytes).length + 5 < 0x80000000)
    (outside : ℤ → UInt8) :
    (ldecode (memory (tableBytes items) outside)).result =
      .ok (.table 0 (items.foldl
        (fun es x => rawset es (x.slot false) x.value) [])) := by
  have hparse := parseDict_items hitems hsize false (Nat.lt_succ_self _) []
  have hmatches := ldecode_matches (complete_tableBytes hsize) outside
  rw [parse] at hmatches
  rw [List.append_nil] at hparse
  rw [hparse] at hmatches
  obtain ⟨-, w, hw, rfl⟩ := hmatches
  exact hw

theorem foldl_rawset
    {array : Bool} {es : Entries}
    (hnodup : (es.map (·.1) ++ items.map (Item.slot array)).Nodup) :
    items.foldl (fun es x => rawset es (x.slot array) x.value) es =
      es ++ items.map fun x => (x.slot array, x.value) := by
  induction items generalizing es with
  | nil => simp
  | cons x items ih =>
      have hnew : x.slot array ∉ es.map (·.1) := by
        intro hmem
        exact (List.nodup_append.mp hnodup).2.2 _ hmem _ List.mem_cons_self rfl
      have hset : rawset es (x.slot array) x.value =
          es ++ [(x.slot array, x.value)] := by
        rw [rawset, List.filter_eq_self.mpr]
        intro e he
        refine decide_eq_true fun heq => hnew ?_
        rw [← heq]
        exact List.mem_map_of_mem he
      rw [List.foldl_cons, hset, ih]
      · simp
      · simpa using hnodup

end SkynetServer.Bson
