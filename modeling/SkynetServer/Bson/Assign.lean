import SkynetServer.Bson.FieldIndex

/-!
# What an assignment does to a document

The id of a field gives back its type, and its offset as long as this has less
than 27 bits.  A 32 bit field keeps the low bits of whatever integer is assigned
to it.
-/

namespace SkynetServer.Bson

open Logged Parse

/-! ## Ids -/

section Ids

variable {t : BsonType}

theorem code_lt (ht : 0 < fieldSize t) : t.code.toNat < 32 := by
  cases t with
  | real | objectid | boolean | date | int32 | timestamp | int64 => decide
  | string | document | array | binary | null | regex | dbpointer | jscode
  | symbol | codews | minkey | maxkey => exact absurd ht (Nat.lt_irrefl 0)

theorem toNat_fieldId (ht : 0 < fieldSize t) (offset : ℕ) :
    (fieldId t offset).toNat =
      32 * (offset % 0x8000000) + t.code.toNat := by
  have hcode := code_lt ht
  have hshift : offset % 0x100000000 * 32 % 0x100000000 =
      (offset % 0x8000000) <<< 5 := by
    rw [Nat.shiftLeft_eq]
    omega
  rw [fieldId, BitVec.toNat_or, BitVec.toNat_shiftLeft, BitVec.ofInt_natCast,
    BitVec.toNat_ofNat, BitVec.toNat_ofNat, Nat.shiftLeft_eq,
    Nat.mod_eq_of_lt (by omega)]
  show t.code.toNat ||| offset % 0x100000000 * 32 % 0x100000000 = _
  rw [hshift, Nat.or_comm, ← Nat.shiftLeft_add_eq_or_of_lt hcode,
    Nat.shiftLeft_eq]
  omega

theorem type_fieldId (ht : 0 < fieldSize t) (offset : ℕ) :
    BsonType.ofCode (.ofNat (fieldId t offset &&& 31).toNat) = some t := by
  have hcode : (fieldId t offset &&& 31).toNat = t.code.toNat := by
    have hmask := Nat.and_two_pow_sub_one_eq_mod (fieldId t offset).toNat 5
    rw [BitVec.toNat_and]
    rw [toNat_fieldId ht] at hmask ⊢
    show _ &&& (2 ^ 5 - 1) = _
    rw [hmask]
    have hsmall := code_lt ht
    omega
  rw [hcode, UInt8.ofNat_toNat, BsonType.ofCode_code]

/-- The offset of an id is never above the one it was made of. -/
theorem offset_fieldId (ht : 0 < fieldSize t) (offset : ℕ) :
    ((fieldId t offset).sshiftRight 5).toInt ≤ offset ∧
      (((fieldId t offset).sshiftRight 5).toInt = offset ↔
        offset < 0x4000000) := by
  have hid := toNat_fieldId ht offset
  have hcode := code_lt ht
  rw [BitVec.toInt_sshiftRight, Int.shiftRight_eq_div_pow,
    BitVec.toInt_eq_toNat_cond, hid]
  split <;> omega

end Ids

/-! ## The bytes that are written -/

/- The float that `luaL_checknumber` takes an argument for, and whether an
integer is equal to a float. -/
variable (checknumber : Argument → Option (BitVec 64))
variable (equals : BitVec 64 → BitVec 64 → Bool)

/-- The value is the one that was assigned; an integer may come back as a
float. -/
def Same (v : Argument) (u : Value) : Prop :=
  v = .value u ∨
    ∃ i bits, v = .value (.integer i) ∧ u = .real bits ∧ equals i bits

/-- A value that is accepted is one for a field of the type. -/
def Suits (t : BsonType) (v : Argument) : Prop :=
  match t with
  | .real =>
    (∃ bits, v = .value (.real bits)) ∨
      ∃ i bits, v = .value (.integer i) ∧ checknumber v = some bits ∧
        equals i bits
  | .boolean => ∃ b, v = .value (.boolean b)
  | .int32 => ∃ i : BitVec 64, v = .value (.integer i) ∧
      -0x80000000 ≤ i.toInt ∧ i.toInt ≤ 0x7fffffff
  | _ => True

section Written

variable {t : BsonType} {v : Argument} {bytes : List UInt8} {data : List UInt8}

theorem readsAs_objectid (hdata : data.length = 12) :
    ReadsAs .objectid data (.string (0 :: BsonType.objectid.code :: data)) := by
  intro fuel rest _
  have htake := takeBytes_append data rest
  rw [hdata] at htake
  show (takeBytes 12 _ >>= fun x =>
    pure (Value.string (0 :: BsonType.objectid.code :: x.1), x.2)) = _
  rw [htake]
  rfl

theorem readsAs_date (hdata : data.length = 4) :
    ReadsAs .date (LittleEndian.bytes 8 (LittleEndian.number data * 1000))
      (.string (0 :: BsonType.date.code :: data)) := by
  intro fuel rest _
  have hnumber := LittleEndian.number_lt data
  have hback := LittleEndian.bytes_number data
  rw [hdata] at hnumber hback
  have hint : (BitVec.ofNat 64 (LittleEndian.number data * 1000)).toInt =
      (LittleEndian.number data : ℤ) * 1000 := by
    rw [BitVec.toInt_eq_toNat_cond, BitVec.toNat_ofNat,
      Nat.mod_eq_of_lt (by omega), if_pos (by omega)]
    rfl
  have hquot : ((LittleEndian.number data : ℤ) * 1000).tdiv 1000 =
      (LittleEndian.number data : ℕ) := by
    rw [Int.tdiv_eq_ediv_of_nonneg (by omega)]
    omega
  show (takeInt64 _ >>= fun x =>
    pure (Value.string (0 :: BsonType.date.code :: LittleEndian.bytes 4
      (BitVec.ofInt 32 (x.1.toInt.tdiv 1000)).toNat), x.2)) = _
  rw [takeInt64_bytes]
  show Except.ok (Value.string (0 :: BsonType.date.code :: LittleEndian.bytes 4
    (BitVec.ofInt 32 ((BitVec.ofNat 64
      (LittleEndian.number data * 1000)).toInt.tdiv 1000)).toNat), rest) = _
  rw [hint, hquot, BitVec.ofInt_natCast, BitVec.toNat_ofNat,
    Nat.mod_eq_of_lt (by omega), hback]

theorem readsAs_timestamp (hdata : data.length = 8) :
    ReadsAs .timestamp
      (LittleEndian.bytes 4 (LittleEndian.number (data.take 4)) ++
        LittleEndian.bytes 4 (LittleEndian.number (data.drop 4)))
      (.string (0 :: BsonType.timestamp.code :: data)) := by
  intro fuel rest _
  have hfront : (data.take 4).length = 4 := by
    rw [List.length_take]
    omega
  have hrest : (data.drop 4).length = 4 := by
    rw [List.length_drop]
    omega
  have hword : ∀ s : List UInt8, s.length = 4 →
      LittleEndian.bytes 4
        (BitVec.ofNat 32 (LittleEndian.number s)).toNat = s := by
    intro s hs
    have hnumber := LittleEndian.number_lt s
    have hback := LittleEndian.bytes_number s
    rw [hs] at hnumber hback
    rw [BitVec.toNat_ofNat, Nat.mod_eq_of_lt (by omega), hback]
  show (takeInt32 _ >>= fun x => takeInt32 x.2 >>= fun y =>
    pure (Value.string (0 :: BsonType.timestamp.code ::
      (LittleEndian.bytes 4 x.1.toNat ++ LittleEndian.bytes 4 y.1.toNat)),
      y.2)) = _
  rw [List.append_assoc, takeInt32_bytes]
  show (takeInt32 (LittleEndian.bytes 4 (LittleEndian.number (data.drop 4)) ++
    rest) >>= fun y => pure (Value.string (0 :: BsonType.timestamp.code ::
      (LittleEndian.bytes 4 (BitVec.ofNat 32
        (LittleEndian.number (data.take 4))).toNat ++
        LittleEndian.bytes 4 y.1.toNat)), y.2)) = _
  rw [takeInt32_bytes]
  show Except.ok (Value.string (0 :: BsonType.timestamp.code ::
    (LittleEndian.bytes 4 (BitVec.ofNat 32
      (LittleEndian.number (data.take 4))).toNat ++
    LittleEndian.bytes 4 (BitVec.ofNat 32
      (LittleEndian.number (data.drop 4))).toNat)), rest) = _
  rw [hword _ hfront, hword _ hrest, List.take_append_drop]

/-- An object that is accepted is read back. -/
theorem replaceObject_ok
    (ht : t = .objectid ∨ t = .date ∨ t = .timestamp)
    (h : replaceObject t v = .ok bytes) :
    ∃ u, v = .value u ∧ ReadsAs t bytes u ∧ bytes.length = fieldSize t := by
  unfold replaceObject at h
  split at h
  · rename_i subt data
    split at h
    · cases h
    · rename_i hsubt
      have hcode : subt = t.code := by
        by_contra hne
        exact hsubt (Or.inr hne)
      subst hcode
      rcases ht with rfl | rfl | rfl
      · dsimp only at h
        split at h
        · cases h
        · rename_i hlength
          cases h
          exact ⟨_, rfl, readsAs_objectid (not_not.mp hlength),
            not_not.mp hlength⟩
      · dsimp only at h
        split at h
        · cases h
        · rename_i hlength
          cases h
          exact ⟨_, rfl, readsAs_date (not_not.mp hlength),
            LittleEndian.length_bytes _ _⟩
      · dsimp only at h
        split at h
        · cases h
        · rename_i hlength
          cases h
          refine ⟨_, rfl, readsAs_timestamp (not_not.mp hlength), ?_⟩
          rw [List.length_append, LittleEndian.length_bytes]
          rfl
  · cases h

/-- What is written for a value is read as a value, and this is the same
exactly if the value suits the field. -/
theorem replaceBytes_ok
    (hnumber : ∀ bits, checknumber (.value (.real bits)) = some bits)
    (h : replaceBytes checknumber t v = .ok bytes) :
    ∃ u, ReadsAs t bytes u ∧ bytes.length = fieldSize t ∧
      (Same equals v u ↔ Suits checknumber equals t v) := by
  have hobject : t = .objectid ∨ t = .date ∨ t = .timestamp →
      replaceObject t v = .ok bytes →
      ∃ u, ReadsAs t bytes u ∧ bytes.length = fieldSize t ∧
        (Same equals v u ↔ Suits checknumber equals t v) := by
    intro ht h
    obtain ⟨u, hu, hreads, hlength⟩ := replaceObject_ok ht h
    have hsuits : Suits checknumber equals t v := by
      rcases ht with rfl | rfl | rfl <;> trivial
    exact ⟨u, hreads, hlength, iff_of_true (Or.inl hu) hsuits⟩
  cases t with
  | objectid => exact hobject (Or.inl rfl) h
  | date => exact hobject (Or.inr (Or.inl rfl)) h
  | timestamp => exact hobject (Or.inr (Or.inr rfl)) h
  | real =>
      rw [replaceBytes] at h
      split at h
      · rename_i bits hbits
        cases h
        refine ⟨.real bits, readsAs_real bits,
          LittleEndian.length_bytes _ _, ?_⟩
        constructor
        · rintro (hv | ⟨i, bits', hv, hu, hequal⟩)
          · exact Or.inl ⟨bits, hv⟩
          · cases hu
            exact Or.inr ⟨i, bits, hv, hbits, hequal⟩
        · rintro (⟨bits', rfl⟩ | ⟨i, bits', hv, hsome, hequal⟩)
          · rw [hnumber] at hbits
            cases hbits
            exact Or.inl rfl
          · rw [hbits] at hsome
            cases hsome
            exact Or.inr ⟨i, bits, hv, rfl, hequal⟩
      · cases h
  | boolean =>
      cases h
      refine ⟨.boolean (toboolean v), readsAs_boolean _, rfl, ?_⟩
      constructor
      · rintro (hv | ⟨i, bits, -, hu, -⟩)
        · exact ⟨_, hv⟩
        · cases hu
      · rintro ⟨b, rfl⟩
        exact Or.inl rfl
  | int32 =>
      cases v with
      | nil | other n => cases h
      | value v =>
          cases v with
          | real bits | boolean b | string s | table border es => cases h
          | integer i =>
              cases h
              refine ⟨.integer ((i.setWidth 32).signExtend 64), readsAs_word _,
                LittleEndian.length_bytes _ _, ?_⟩
              have hkept := Integers.signExtend_setWidth_iff i
              constructor
              · rintro (hv | ⟨i, bits, -, hu, -⟩)
                · injection hv with hv
                  injection hv with hv
                  exact ⟨i, rfl, hkept.mp hv.symm⟩
                · cases hu
              · rintro ⟨i', hv, hrange⟩
                cases hv
                rw [hkept.mpr hrange]
                exact Or.inl rfl
  | int64 =>
      cases v with
      | nil | other n => cases h
      | value v =>
          cases v with
          | real bits | boolean b | string s | table border es => cases h
          | integer i =>
              cases h
              exact ⟨.integer i, readsAs_int64 i, LittleEndian.length_bytes _ _,
                iff_of_true (Or.inl rfl) trivial⟩
  | string | document | array | binary | null | regex | dbpointer | jscode
  | symbol | codews | minkey | maxkey => cases h

end Written

/-! ## The document after a write -/

theorem apply_memory
    (front back : List UInt8) {old new : List UInt8}
    (hlength : new.length = old.length) (outside : ℤ → UInt8) :
    (Write.mk front.length new).apply
        (memory (front ++ (old ++ back)) outside) =
      memory (front ++ (new ++ back)) outside := by
  funext p
  have hsame : (front ++ (new ++ back)).length =
      (front ++ (old ++ back)).length := by
    simp only [List.length_append, hlength]
  rw [Write.apply, memory, memory, hsame]
  dsimp only
  by_cases hdoc : 0 ≤ p ∧ p < (front ++ (old ++ back)).length
  · obtain ⟨n, rfl⟩ := Int.eq_ofNat_of_zero_le hdoc.1
    rw [if_pos hdoc, if_pos hdoc, Int.toNat_natCast]
    simp only [List.getD_eq_getElem?_getD]
    by_cases hfront : n < front.length
    · rw [if_neg (by omega), List.getElem?_append_left hfront,
        List.getElem?_append_left hfront]
    · have hstart : ((n : ℤ) - front.length).toNat = n - front.length := by
        omega
      have hskip : ∀ xs : List UInt8,
          (front ++ xs)[n]? = xs[n - front.length]? := fun xs =>
        List.getElem?_append_right (by omega)
      rw [hskip, hskip, hstart]
      by_cases hnew : n < front.length + new.length
      · rw [if_pos (by omega), List.getElem?_append_left (by omega)]
      · rw [if_neg (by omega), List.getElem?_append_right (by omega),
          List.getElem?_append_right (by omega), hlength]
  · rw [if_neg hdoc, if_neg hdoc, if_neg]
    intro hwindow
    refine hdoc ⟨by omega, ?_⟩
    simp only [List.length_append]
    omega

section Tables

variable {es es' : Entries} {k : Key}

theorem rawget_rawset (k' : Key) (v : Value) :
    rawget (rawset es k' v) k = if k' = k then some v else rawget es k := by
  rw [rawget, rawset, rawget, List.find?_append, List.find?_filter]
  by_cases hk : k' = k
  · subst hk
    have hnone : es.find? (fun e => decide
        (decide (e.1 ≠ k') = true ∧ decide (e.1 = k') = true)) = none :=
      List.find?_eq_none.mpr fun e _ => by simp
    rw [if_pos rfl, hnone]
    simp
  · have hsame : (fun e : Key × Value => decide
        (decide (e.1 ≠ k') = true ∧ decide (e.1 = k) = true)) =
        fun e => decide (e.1 = k) := by
      funext e
      have hother : e.1 = k → e.1 ≠ k' := fun he hk' => hk (hk'.symm.trans he)
      simpa using hother
    rw [if_neg hk, hsame]
    simp [hk]

/-- What the fields put into a table. -/
def setItems (items : List Item) (es : Entries) : Entries :=
  items.foldl (fun es x => rawset es (x.slot false) x.value) es

theorem rawget_setItems_congr
    (items : List Item) (h : rawget es k = rawget es' k) :
    rawget (setItems items es) k = rawget (setItems items es') k := by
  induction items generalizing es es' with
  | nil => exact h
  | cons x items ih =>
      refine ih ?_
      rw [rawget_rawset, rawget_rawset, h]

theorem rawget_setItems_of_ne
    {items : List Item} (h : ∀ x ∈ items, x.slot false ≠ k) :
    rawget (setItems items es) k = rawget es k := by
  induction items generalizing es with
  | nil => rfl
  | cons x items ih =>
      obtain ⟨hx, hitems⟩ := List.forall_mem_cons.mp h
      have hrest :
          rawget (setItems items (rawset es (x.slot false) x.value)) k =
            rawget (rawset es (x.slot false) x.value) k := ih hitems
      rw [rawget_rawset, if_neg hx] at hrest
      exact hrest

end Tables

/-- The field is the last one with the key in the document. -/
structure Field.Of (p : Field) (document f : List UInt8) : Prop where
  bytes : document = tableBytes p.items
  size : (p.items.flatMap Item.bytes).length + 5 < 0x80000000
  good : ∀ x ∈ p.items, x.Good
  key : p.item.key = f
  last : ∀ x ∈ p.rest, x.key ≠ f

section Documents

variable {document f : List UInt8} {p : Field}

/-- The bytes of the document around the value. -/
theorem Field.tableBytes_items (p : Field) :
    ∃ front back, front.length = p.offset ∧
      ∀ bytes u, bytes.length = p.item.payload.length →
        tableBytes (p.front ++ ⟨p.item.key, p.item.type, bytes, u⟩ :: p.rest) =
          front ++ (bytes ++ back) := by
  refine ⟨LittleEndian.bytes 4 ((p.items.flatMap Item.bytes).length + 5) ++
    (p.front.flatMap Item.bytes ++ p.item.type.code :: (p.item.key ++ [0])),
    p.rest.flatMap Item.bytes ++ [0], ?_, fun bytes u hlength => ?_⟩
  · simp only [List.length_append, LittleEndian.length_bytes, List.length_cons,
      List.length_nil, Field.offset]
    omega
  · have hcount : ((p.front ++ ⟨p.item.key, p.item.type, bytes, u⟩ ::
        p.rest).flatMap Item.bytes).length =
        (p.items.flatMap Item.bytes).length := by
      simp only [Field.items, List.flatMap_append, List.flatMap_cons,
        List.length_append, Item.bytes, List.length_cons, hlength]
    rw [tableBytes, hcount]
    simp [Item.bytes]

/-- The document with another value of a field of the same length. -/
theorem Field.Of.replaced
    (h : p.Of document f) {bytes : List UInt8} {u : Value}
    (hreads : ReadsAs p.item.type bytes u)
    (hlength : bytes.length = p.item.payload.length) (outside : ℤ → UInt8) :
    ∃ old new,
      (ldecode (memory document outside)).result = .ok (.table 0 old) ∧
      (ldecode ((Write.mk p.offset bytes).apply
        (memory document outside))).result = .ok (.table 0 new) ∧
      rawget new (.string f) = some u ∧
      ∀ k, k ≠ .string f → rawget new k = rawget old k := by
  obtain ⟨hdocument, hsize, hgood, rfl, hlast⟩ := h
  obtain ⟨front, back, hfront, htable⟩ := p.tableBytes_items
  have hold := htable p.item.payload p.item.value rfl
  have hnew := htable bytes u hlength
  have hwritten := apply_memory front back hlength outside
  rw [← hold, ← hnew, hfront] at hwritten
  have hgood' : ∀ x ∈ p.front ++ ⟨p.item.key, p.item.type, bytes, u⟩ :: p.rest,
      x.Good := by
    intro x hx
    rcases List.mem_append.mp hx with hx | hx
    · exact hgood x (List.mem_append_left _ hx)
    · rcases List.mem_cons.mp hx with rfl | hx
      · have hitem := hgood p.item
          (List.mem_append_right _ List.mem_cons_self)
        exact ⟨hitem.key, hreads⟩
      · exact hgood x (List.mem_append_right _ (List.mem_cons_of_mem _ hx))
  have hsize' : ((p.front ++ ⟨p.item.key, p.item.type, bytes, u⟩ ::
      p.rest).flatMap Item.bytes).length + 5 < 0x80000000 := by
    simp only [Field.items, List.flatMap_append, List.flatMap_cons,
      List.length_append, Item.bytes, List.length_cons] at hsize ⊢
    omega
  have hslot : ∀ x ∈ p.rest, x.slot false ≠ .string p.item.key :=
    fun x hx heq => hlast x hx (Key.string.inj heq)
  refine ⟨setItems p.items [], setItems (p.front ++
    ⟨p.item.key, p.item.type, bytes, u⟩ :: p.rest) [], ?_, ?_, ?_, ?_⟩
  · rw [hdocument]
    exact ldecode_items hgood hsize outside
  · rw [hdocument]
    show (ldecode ((Write.mk p.offset bytes).apply
      (memory (tableBytes (p.front ++ p.item :: p.rest)) outside))).result = _
    rw [hwritten]
    exact ldecode_items hgood' hsize' outside
  · rw [setItems, List.foldl_append, List.foldl_cons]
    show rawget (setItems p.rest _) _ = _
    rw [rawget_setItems_of_ne hslot, rawget_rawset]
    exact if_pos rfl
  · intro k hk
    rw [setItems, setItems, Field.items, List.foldl_append, List.foldl_append,
      List.foldl_cons, List.foldl_cons]
    refine rawget_setItems_congr p.rest ?_
    have hother : Item.slot false p.item ≠ k := Ne.symm hk
    rw [rawget_rawset, rawget_rawset, if_neg hother]
    exact if_neg hother

end Documents

/-! ## Assignments -/

/-- Decoding gives the assigned value for the key, and for all others what it
gave before. -/
def Assigned (m m' : ℤ → UInt8) (f : List UInt8) (v : Argument) : Prop :=
  ∃ old new,
    (ldecode m).result = .ok (.table 0 old) ∧
    (ldecode m').result = .ok (.table 0 new) ∧
    (∃ u, rawget new (.string f) = some u ∧ Same equals v u) ∧
    ∀ k, k ≠ .string f → rawget new k = rawget old k

/-- The write stays inside the value of the field, and assigns the value. -/
def Replaces
    (document : List UInt8) (outside : ℤ → UInt8) (f : List UInt8)
    (v : Argument) (w : Write) : Prop :=
  ∃ p : Field, p.Of document f ∧ p.offset ≤ w.ptr ∧
    w.ptr + w.bytes.length ≤ p.offset + p.item.payload.length ∧
    Assigned equals (memory document outside)
      (w.apply (memory document outside)) f v

/-- The last field with the key is one of a fixed size, its offset fits into an
id, and the value suits it. -/
def Replaceable
    (document : List UInt8) (f : List UInt8) (v : Argument) : Prop :=
  ∃ p : Field, p.Of document f ∧ 0 < fieldSize p.item.type ∧
    p.offset < 0x4000000 ∧ Suits checknumber equals p.item.type v

section Replacing

variable {checknumber equals}
variable {document f : List UInt8} {index : Index} {v : Argument} {w : Write}
variable {p : Field} {outside : ℤ → UInt8}

/-- The id that an assignment uses: of the field itself, or of one before it. -/
theorem Field.Of.lreplace_ok
    (h : p.Of document f)
    (hindex : (lmakeindex (memory document outside)).result = .ok index)
    (hw : lreplace checknumber index f v = .ok w) :
    ∃ t, ∃ offset : ℕ, 0 < fieldSize t ∧
      w.ptr = ((fieldId t offset).sshiftRight 5).toInt ∧
      replaceBytes checknumber t v = .ok w.bytes ∧
      ((t = p.item.type ∧ offset = p.offset) ∨
        (fieldSize p.item.type = 0 ∧ offset < p.offset)) := by
  obtain ⟨hdocument, hsize, hgood, rfl, hlast⟩ := h
  rw [hdocument, lmakeindex_items hgood hsize outside] at hindex
  cases hindex
  rw [lreplace] at hw
  cases hid : (indexItems 4 p.items []).rawget p.item.key with
  | none =>
      rw [hid] at hw
      cases hw
  | some id =>
      rw [hid] at hw
      have hwrite : ∀ t, ∀ offset : ℕ, 0 < fieldSize t → id = fieldId t offset →
          w.ptr = ((fieldId t offset).sshiftRight 5).toInt ∧
            replaceBytes checknumber t v = .ok w.bytes := by
        rintro t offset ht rfl
        dsimp only at hw
        rw [replaceAt, type_fieldId ht] at hw
        obtain ⟨bytes, hbytes, hw⟩ := ok_bind hw
        cases hw
        exact ⟨rfl, hbytes⟩
      rcases Field.indexed hlast hid with
        ⟨hfixed, hown⟩ | ⟨hnot, t, offset, hbefore, ht, hother⟩
      · obtain ⟨hptr, hbytes⟩ := hwrite _ _ hfixed hown
        exact ⟨_, _, hfixed, hptr, hbytes, Or.inl ⟨rfl, rfl⟩⟩
      · obtain ⟨hptr, hbytes⟩ := hwrite _ _ ht hother
        exact ⟨_, _, ht, hptr, hbytes, Or.inr ⟨hnot, hbefore⟩⟩

end Replacing

/-- An assignment that is accepted does to the document what it should if and
only if the field can take the value. -/
theorem lreplace_iff
    (hnumber : ∀ bits, checknumber (.value (.real bits)) = some bits)
    (document : List UInt8) (outside : ℤ → UInt8) (index : Index)
    (hindex : (lmakeindex (memory document outside)).result = .ok index)
    (f : List UInt8) (v : Argument) (w : Write)
    (hw : lreplace checknumber index f v = .ok w) :
    Replaces equals document outside f v w ↔
      Replaceable checknumber equals document f v := by
  constructor
  · rintro ⟨p, hp, hstart, -, old, new, -, hnew, ⟨u, hget, hsame⟩, -⟩
    obtain ⟨t, offset, ht, hptr, hbytes, hfield⟩ := hp.lreplace_ok hindex hw
    obtain ⟨hle, heq⟩ := offset_fieldId ht offset
    rcases hfield with ⟨rfl, rfl⟩ | ⟨-, hbefore⟩
    · have hown : w.ptr = p.offset := by omega
      have hsmall : p.offset < 0x4000000 := heq.mp (by omega)
      obtain ⟨u', hreads, hlength, hiff⟩ :=
        replaceBytes_ok checknumber equals hnumber hbytes
      have hitem := hp.good p.item (List.mem_append_right _ List.mem_cons_self)
      have hpayload := hitem.reads.length_eq ht
      obtain ⟨-, new', -, hnew', hget', -⟩ := hp.replaced hreads
        (hlength.trans hpayload.symm) outside
      rw [← hown, hnew] at hnew'
      cases hnew'
      rw [hget] at hget'
      cases hget'
      exact ⟨p, hp, ht, hsmall, hiff.mp hsame⟩
    · omega
  · rintro ⟨p, hp, hfixed, hsmall, hsuits⟩
    obtain ⟨t, offset, ht, hptr, hbytes, hfield⟩ := hp.lreplace_ok hindex hw
    rcases hfield with ⟨rfl, rfl⟩ | ⟨hnot, -⟩
    · have hown := hptr.trans ((offset_fieldId ht p.offset).2.mpr hsmall)
      obtain ⟨u, hreads, hlength, hiff⟩ :=
        replaceBytes_ok checknumber equals hnumber hbytes
      have hitem := hp.good p.item (List.mem_append_right _ List.mem_cons_self)
      have hpayload := hitem.reads.length_eq ht
      obtain ⟨old, new, hold, hnew, hget, hothers⟩ := hp.replaced hreads
        (hlength.trans hpayload.symm) outside
      rw [← hown] at hnew
      exact ⟨p, hp, by omega, by omega, old, new, hold, hnew,
        ⟨u, hget, hiff.mpr hsuits⟩, hothers⟩
    · omega

/-- `luaL_checknumber` of arguments that are no texts -/
def floatNumber : Argument → Option (BitVec 64)
  | .value (.real bits) => some bits
  | _ => none

/-- The table with 1 in the 32 bit field `a`, as a document. -/
def oneField : List UInt8 := [12, 0, 0, 0, 16, 97, 0, 1, 0, 0, 0, 0]

theorem lreplace_oneField :
    ∃ index w, lencode [(.string [97], .integer 1)] = .ok oneField ∧
      (lmakeindex (memory oneField fun _ => 0)).result = .ok index ∧
      lreplace floatNumber index [97] (.value (.integer 5)) = .ok w ∧
      Replaces (fun _ _ => false) oneField (fun _ => 0) [97]
        (.value (.integer 5)) w := by
  let p : Field := ⟨[], ⟨[97], .int32, [1, 0, 0, 0], .integer 1⟩, []⟩
  have hgood : p.item.Good := by
    refine ⟨by decide, ?_⟩
    exact readsAs_int32 (i := 1) (by decide) (by decide)
  have hp : p.Of oneField [97] :=
    ⟨by decide, by decide, List.forall_mem_singleton.mpr hgood, rfl,
      fun _ h => (List.not_mem_nil h).elim⟩
  have hindex : (lmakeindex (memory oneField fun _ => 0)).result =
      .ok [([97], 240)] := rfl
  have hw : lreplace floatNumber [([97], 240)] [97] (.value (.integer 5)) =
      .ok ⟨7, [5, 0, 0, 0]⟩ := rfl
  refine ⟨_, _, rfl, hindex, hw, ?_⟩
  refine (lreplace_iff floatNumber _ (fun _ => rfl) oneField _ _ hindex _ _ _
    hw).mpr ⟨p, hp, by decide, by decide, 5, rfl, by decide, by decide⟩

/-- The integer 4294967297 is accepted for the field, which is 1 then. -/
theorem lreplace_narrows :
    ∃ index w, lencode [(.string [97], .integer 1)] = .ok oneField ∧
      (lmakeindex (memory oneField fun _ => 0)).result = .ok index ∧
      lreplace floatNumber index [97] (.value (.integer 0x100000001)) = .ok w ∧
      ¬Replaces (fun _ _ => false) oneField (fun _ => 0) [97]
        (.value (.integer 0x100000001)) w := by
  refine ⟨[([97], 240)], ⟨7, [1, 0, 0, 0]⟩, rfl, rfl, rfl, ?_⟩
  rintro ⟨-, -, -, -, -, new, -, hnew, ⟨u, hget, hsame⟩, -⟩
  have hdecode : (ldecode ((Write.mk 7 [1, 0, 0, 0]).apply
      (memory oneField fun _ => 0))).result =
      .ok (.table 0 [(.string [97], .integer 1)]) := rfl
  rw [hdecode] at hnew
  cases hnew
  cases hget
  rcases hsame with hv | ⟨i, bits, -, hu, -⟩
  · injection hv with hv
    injection hv with hv
    exact absurd hv (by decide)
  · cases hu

end SkynetServer.Bson
