import SkynetServer.Bson.Replace

/-!
# Where the fields are

The index of a document of fields has the last field of a fixed size for each
key, with the offset of its value.
-/

namespace SkynetServer.Bson

open Logged Parse

/-! ## What the index is -/

/-- The index of the fields that begin at this offset. -/
def indexItems : ℤ → List Item → Index → Index
  | _, [], index => index
  | offset, x :: items, index =>
    indexItems (offset + x.bytes.length) items
      (if 0 < fieldSize x.type
        then index.rawset x.key (fieldId x.type (offset + x.key.length + 2))
        else index)

/-! ## The end of a reader -/

/-- The reader ends where the other one does. -/
def SameEnd (r r' : Reader) : Prop := r'.ptr + r'.size = r.ptr + r.size

section SameEnd

variable {m : ℤ → UInt8} {r r' r'' : Reader}

theorem SameEnd.trans (h : SameEnd r r') (h' : SameEnd r' r'') :
    SameEnd r r'' :=
  Eq.trans h' h

theorem advance_sameEnd (n : ℤ) : Returns (SameEnd r) (advance r n) := by
  intro r' hr'
  obtain ⟨size, hsize, hr'⟩ := run_ok hr'
  cases hr'
  rw [int] at hsize
  split at hsize
  · cases hsize
    show r.ptr + n + (r.size - n) = r.ptr + r.size
    omega
  · cases hsize

theorem readNumber_sameEnd (n : ℕ) :
    Returns (fun a => SameEnd r a.2) (readNumber m r n) :=
  .bind fun _ => .bind fun _ => (advance_sameEnd n).bind_of fun _ h => .pure h

theorem readByte_sameEnd : Returns (fun a => SameEnd r a.2) (readByte m r) :=
  (readNumber_sameEnd 1).bind_of fun _ h => .pure h

theorem readInt32_sameEnd : Returns (fun a => SameEnd r a.2) (readInt32 m r) :=
  (readNumber_sameEnd 4).bind_of fun _ h => .pure h

theorem readBytes_sameEnd (n : ℤ) :
    Returns (fun a => SameEnd r a.2) (readBytes r n) :=
  .bind fun _ => (advance_sameEnd n).bind_of fun _ h => .pure h

theorem readCstring_sameEnd :
    Returns (fun a => SameEnd r a.2) (readCstring m r) :=
  .bind fun _ => (advance_sameEnd _).bind_of fun _ h => .pure h

theorem skipField_sameEnd (t : BsonType) :
    Returns (SameEnd r) (skipField m r t) := by
  have hsized : ∀ r', SameEnd r r' → ∀ n,
      Returns (SameEnd r) (readBytes r' n >>= fun x => pure x.2) :=
    fun r' hr' n =>
      (readBytes_sameEnd n).bind_of fun _ h => .pure (hr'.trans h)
  cases t with
  | jscode | symbol | string =>
      exact readInt32_sameEnd.bind_of fun a ha => hsized _ ha _
  | codews | array | document | binary | dbpointer =>
      exact readInt32_sameEnd.bind_of fun a ha => .bind fun n => hsized _ ha n
  | regex =>
      refine readCstring_sameEnd.bind_of fun a ha => ?_
      exact readCstring_sameEnd.bind_of fun b hb => .pure (ha.trans hb)
  | real | objectid | boolean | date | null | int32 | timestamp | int64
  | minkey | maxkey => exact .pure rfl

end SameEnd

/-! ## Fields that are skipped -/

section Taking

variable {bs rest rest' : List UInt8}

theorem takeBytes_eq_ok
    {n : ℕ} {s : List UInt8} (h : takeBytes n bs = .ok (s, rest)) :
    s.length = n ∧ bs = s ++ rest := by
  rw [takeBytes] at h
  split at h
  · cases h
  · cases h
    refine ⟨?_, (List.take_append_drop n bs).symm⟩
    rw [List.length_take]
    omega

theorem takeBytes_add
    {n k : ℕ} {s s' : List UInt8} (h : takeBytes n bs = .ok (s, rest))
    (h' : takeBytes k rest = .ok (s', rest')) :
    takeBytes (n + k) bs = .ok (s ++ s', rest') := by
  obtain ⟨rfl, rfl⟩ := takeBytes_eq_ok h
  obtain ⟨rfl, rfl⟩ := takeBytes_eq_ok h'
  rw [← List.length_append, ← List.append_assoc]
  exact takeBytes_append (s ++ s') rest'

theorem takeByte_eq_ok
    {v : UInt8} (h : takeByte bs = .ok (v, rest)) :
    ∃ s, takeBytes 1 bs = .ok (s, rest) := by
  obtain ⟨⟨n, rest₁⟩, hnumber, h⟩ := ok_bind h
  obtain ⟨⟨s, rest₂⟩, hbytes, hnumber⟩ := ok_bind hnumber
  cases hnumber
  cases h
  exact ⟨s, hbytes⟩

end Taking

section Skipping

variable {m : ℤ → UInt8} {len : ℤ} {r : Reader} {bs rest : List UInt8}
variable (hlen : len < 0x80000000)

include hlen

theorem Holds.readByte_result
    (h : Holds m len r bs) {v : UInt8} (htake : takeByte bs = .ok (v, rest)) :
    ∃ r', (Bson.readByte m r).result = .ok (v, r') ∧ Holds m len r' rest := by
  have hmatches := h.readByte hlen
  rw [htake] at hmatches
  obtain ⟨⟨v', r'⟩, hresult, rfl, hr'⟩ := hmatches.result
  exact ⟨r', hresult, hr'⟩

theorem Holds.readInt32_result
    (h : Holds m len r bs) {v : BitVec 32}
    (htake : takeInt32 bs = .ok (v, rest)) :
    ∃ r', (Bson.readInt32 m r).result = .ok (v, r') ∧ Holds m len r' rest := by
  have hmatches := h.readInt32 hlen
  rw [htake] at hmatches
  obtain ⟨⟨v', r'⟩, hresult, rfl, hr'⟩ := hmatches.result
  exact ⟨r', hresult, hr'⟩

theorem Holds.readBytes_result
    (h : Holds m len r bs) {n : ℤ} (hn : 0 ≤ n) {s : List UInt8}
    (htake : takeBytes n.toNat bs = .ok (s, rest)) :
    ∃ p r', (Bson.readBytes r n).result = .ok (p, r') ∧
      Holds m len r' rest := by
  have hmatches := h.readBytes hlen hn
  rw [htake] at hmatches
  obtain ⟨⟨p, r'⟩, hresult, -, hr', -⟩ := hmatches.result
  exact ⟨p, r', hresult, hr'⟩

theorem Holds.readCstring_result
    (h : Holds m len r bs) {key : List UInt8}
    (htake : takeCstring bs = .ok (key, rest)) :
    ∃ r', (Bson.readCstring m r).result = .ok (key, r') ∧
      Holds m len r' rest := by
  have hmatches := h.readCstring hlen
  rw [htake] at hmatches
  obtain ⟨⟨key', r'⟩, hresult, rfl, hr'⟩ := hmatches.result
  exact ⟨r', hresult, hr'⟩

/-- A length is read, and as many bytes as it says are skipped. -/
theorem Holds.skip
    (h : Holds m len r bs) {sz : BitVec 32} {rest₁ s : List UInt8}
    (hsz : takeInt32 bs = .ok (sz, rest₁)) {f : BitVec 32 → Run ℤ} {n : ℤ}
    (hn : 0 ≤ n) (htake : takeBytes n.toNat rest₁ = .ok (s, rest))
    (hcount : n ≤ len → (f sz).result = .ok n) :
    ∃ r', (Bson.readInt32 m r >>= fun x => f x.1 >>= fun n =>
      Bson.readBytes x.2 n >>= fun y => pure y.2).result = .ok r' ∧
      Holds m len r' rest := by
  obtain ⟨r₁, hread, hr₁⟩ := h.readInt32_result hlen hsz
  obtain ⟨p, r', hbytes, hr'⟩ := hr₁.readBytes_result hlen hn htake
  have hfit : n ≤ len := by
    obtain ⟨hlength, rfl⟩ := takeBytes_eq_ok htake
    have hsize := hr₁.size
    have hstart := hr₁.start
    have hstop := hr₁.stop
    rw [List.length_append] at hsize
    omega
  refine ⟨r', ?_, hr'⟩
  rw [result_bind hread, result_bind (hcount hfit), result_bind hbytes]
  rfl

omit hlen in
theorem int_result {x : ℤ} (hlow : -0x80000000 ≤ x) (hhigh : x < 0x80000000) :
    (int x).result = .ok x := by
  rw [int, if_pos ⟨hlow, hhigh⟩]
  rfl

omit hlen in
theorem fits_of_ok
    {α : Type} {t : BsonType} {sz : ℤ} {p : Parse α} {a : α}
    (h : (if ¬Fits t sz then breaks else p) = .ok a) :
    Fits t sz ∧ p = .ok a := by
  split at h
  · cases h
  · exact ⟨not_not.mp ‹_›, h⟩

/-- A field whose bytes are read as a value is skipped as a whole. -/
theorem Holds.skipField
    {t : BsonType} {payload : List UInt8} {w : Value}
    (h : Holds m len r (payload ++ rest)) (hreads : ReadsAs t payload w)
    (hsize : fieldSize t = 0) :
    ∃ r', (Bson.skipField m r t).result = .ok r' ∧ Holds m len r' rest := by
  have hparse := hreads (payload.length + 1) rest (Nat.lt_succ_self _)
  have hcode : ∀ t, (t = .jscode ∨ t = .symbol) →
      parseAtom t (payload ++ rest) = .ok (w, rest) →
      ∃ r', (Bson.skipField m r t).result = .ok r' ∧ Holds m len r' rest := by
    intro t ht hparse
    have hsome : ∃ sz rest₁ s, takeInt32 (payload ++ rest) = .ok (sz, rest₁) ∧
        0 ≤ sz.toInt ∧ takeBytes sz.toInt.toNat rest₁ = .ok (s, rest) := by
      rcases ht with rfl | rfl <;>
      · obtain ⟨⟨sz, rest₁⟩, hsz, hparse⟩ := ok_bind hparse
        obtain ⟨hfits, hparse⟩ := fits_of_ok hparse
        obtain ⟨⟨s, rest₂⟩, htake, hparse⟩ := ok_bind hparse
        cases hparse
        exact ⟨sz, rest₁, s, hsz, hfits.1, htake⟩
    obtain ⟨sz, rest₁, s, hsz, hlow, htake⟩ := hsome
    have hskip := h.skip hlen hsz (f := fun sz => pure sz.toInt) hlow htake
      fun _ => rfl
    rcases ht with rfl | rfl <;> exact hskip
  have htable : ∀ array,
      parseDict (payload.length + 1) (payload ++ rest) array = .ok (w, rest) →
      ∃ r', (Bson.skipField m r .document).result = .ok r' ∧
        Holds m len r' rest := by
    intro array hparse
    rw [parseDict] at hparse
    obtain ⟨⟨sz, rest₁⟩, hsz, hparse⟩ := ok_bind hparse
    obtain ⟨hfits, hparse⟩ := fits_of_ok hparse
    obtain ⟨⟨block, rest₂⟩, hblock, hparse⟩ := ok_bind hparse
    obtain ⟨⟨last, rest₃⟩, hlast, hparse⟩ := ok_bind hparse
    dsimp only at hparse
    split at hparse
    · cases hparse
    obtain ⟨es, -, hparse⟩ := ok_bind hparse
    cases hparse
    have hmin : (5 : ℤ) ≤ sz.toInt := hfits.1
    have hmax := BitVec.toInt_lt (x := sz)
    obtain ⟨s, hlast⟩ := takeByte_eq_ok hlast
    have htake := takeBytes_add hblock hlast
    have hcount : (sz.toInt - 5).toNat + 1 = (sz.toInt - 4).toNat := by omega
    rw [hcount] at htake
    exact h.skip hlen hsz (f := fun sz => int (sz.toInt - 4)) (by omega) htake
      fun _ => int_result (by omega) (by omega)
  cases t with
  | real | objectid | boolean | date | int32 | timestamp | int64 => cases hsize
  | minkey | maxkey | null =>
      have hrest := congrArg Prod.snd (Except.ok.inj hparse)
      refine ⟨r, rfl, ?_⟩
      rwa [show payload ++ rest = rest from hrest] at h
  | jscode => exact hcode _ (Or.inl rfl) hparse
  | symbol => exact hcode _ (Or.inr rfl) hparse
  | document => exact htable false hparse
  | array => exact htable true hparse
  | string =>
      obtain ⟨⟨sz, rest₁⟩, hsz, hparse⟩ := ok_bind hparse
      dsimp only at hparse
      split at hparse
      · cases hparse
      · obtain ⟨⟨s, rest₂⟩, htake, hparse⟩ := ok_bind hparse
        cases hparse
        exact h.skip hlen hsz (f := fun sz => pure sz.toInt) (by omega)
          htake fun _ => rfl
  | binary =>
      obtain ⟨⟨sz, rest₁⟩, hsz, hparse⟩ := ok_bind hparse
      obtain ⟨⟨subtype, rest₂⟩, hbyte, hparse⟩ := ok_bind hparse
      obtain ⟨hfits, hparse⟩ := fits_of_ok hparse
      obtain ⟨⟨s, rest₃⟩, htake, hparse⟩ := ok_bind hparse
      cases hparse
      have hmin : (0 : ℤ) ≤ sz.toInt := hfits.1
      obtain ⟨s', hbyte⟩ := takeByte_eq_ok hbyte
      have hboth := takeBytes_add hbyte htake
      have hcount : 1 + sz.toInt.toNat = (sz.toInt + 1).toNat := by omega
      rw [hcount] at hboth
      exact h.skip hlen hsz (f := fun sz => int (sz.toInt + 1)) (by omega) hboth
        fun hfit => int_result (by omega) (by omega)
  | dbpointer =>
      obtain ⟨⟨sz, rest₁⟩, hsz, hparse⟩ := ok_bind hparse
      obtain ⟨hfits, hparse⟩ := fits_of_ok hparse
      obtain ⟨⟨s, rest₂⟩, htake, hparse⟩ := ok_bind hparse
      cases hparse
      have hmin : (-12 : ℤ) ≤ sz.toInt := hfits.1
      exact h.skip hlen hsz (f := fun sz => int (sz.toInt + 12)) (by omega)
        htake fun hfit => int_result (by omega) (by omega)
  | codews =>
      obtain ⟨⟨sz, rest₁⟩, hsz, hparse⟩ := ok_bind hparse
      obtain ⟨hfits, hparse⟩ := fits_of_ok hparse
      obtain ⟨⟨s, rest₂⟩, htake, hparse⟩ := ok_bind hparse
      cases hparse
      have hmin : (4 : ℤ) ≤ sz.toInt := hfits.1
      exact h.skip hlen hsz (f := fun sz => int (sz.toInt - 4)) (by omega)
        htake fun hfit => int_result (by omega) (by omega)
  | regex =>
      obtain ⟨⟨r1, rest₁⟩, hfirst, hparse⟩ := ok_bind hparse
      obtain ⟨⟨r2, rest₂⟩, hsecond, hparse⟩ := ok_bind hparse
      cases hparse
      obtain ⟨r₁, hread, hr₁⟩ := h.readCstring_result hlen hfirst
      obtain ⟨r₂, hread', hr₂⟩ := hr₁.readCstring_result hlen hsecond
      refine ⟨r₂, ?_, hr₂⟩
      show (Bson.readCstring m r >>= fun x =>
        Bson.readCstring m x.2 >>= fun y => pure y.2).result = _
      rw [result_bind hread, result_bind hread']
      rfl

end Skipping

/-! ## The fields of a document -/

section Fields

variable {m : ℤ → UInt8} {len : ℤ} {r r' : Reader} {bs rest : List UInt8}

theorem Holds.ptr_eq
    (h : Holds m len r bs) (h' : Holds m len r' rest) (hend : SameEnd r r') :
    r'.ptr = r.ptr + bs.length - rest.length := by
  have hsize := h.size
  have hsize' := h'.size
  have hsame : r'.ptr + r'.size = r.ptr + r.size := hend
  omega

theorem length_of_takeNumber
    {α : Type} {f : ℕ → α} {w : ℕ} {payload : List UInt8} {v : α}
    (h : (takeNumber w payload >>= fun x => pure (f x.1, x.2)) = .ok (v, [])) :
    payload.length = w := by
  obtain ⟨⟨n, rest⟩, hnumber, h⟩ := ok_bind h
  cases h
  obtain ⟨⟨s, rest⟩, htake, hnumber⟩ := ok_bind hnumber
  cases hnumber
  obtain ⟨rfl, rfl⟩ := takeBytes_eq_ok htake
  rw [List.append_nil]

/-- The value of a field of a fixed size has as many bytes. -/
theorem ReadsAs.length_eq
    {t : BsonType} {payload : List UInt8} {w : Value}
    (hreads : ReadsAs t payload w) (hsize : 0 < fieldSize t) :
    payload.length = fieldSize t := by
  have hparse := hreads (payload.length + 1) [] (Nat.lt_succ_self _)
  rw [List.append_nil] at hparse
  cases t with
  | real | int64 | date =>
      obtain ⟨⟨v, rest⟩, htake, hparse⟩ := ok_bind hparse
      cases hparse
      exact length_of_takeNumber (f := BitVec.ofNat 64) htake
  | int32 =>
      obtain ⟨⟨v, rest⟩, htake, hparse⟩ := ok_bind hparse
      cases hparse
      exact length_of_takeNumber (f := BitVec.ofNat 32) htake
  | boolean =>
      obtain ⟨⟨v, rest⟩, htake, hparse⟩ := ok_bind hparse
      cases hparse
      exact length_of_takeNumber (f := UInt8.ofNat) htake
  | objectid =>
      obtain ⟨⟨s, rest⟩, htake, hparse⟩ := ok_bind hparse
      cases hparse
      obtain ⟨hlength, rfl⟩ := takeBytes_eq_ok htake
      rw [List.append_nil]
      exact hlength
  | timestamp =>
      obtain ⟨⟨inc, rest⟩, hinc, hparse⟩ := ok_bind hparse
      obtain ⟨⟨ts, rest'⟩, hts, hparse⟩ := ok_bind hparse
      cases hparse
      have hfour := length_of_takeNumber (f := BitVec.ofNat 32) hts
      obtain ⟨⟨k, rest₁⟩, hnumber, hinc⟩ := ok_bind hinc
      cases hinc
      obtain ⟨⟨s, rest₂⟩, htake, hnumber⟩ := ok_bind hnumber
      cases hnumber
      obtain ⟨hlength, rfl⟩ := takeBytes_eq_ok htake
      rw [List.length_append, hlength, hfour]
      rfl
  | string | document | array | binary | null | regex | dbpointer | jscode
  | symbol | codews | minkey | maxkey => exact absurd hsize (Nat.lt_irrefl 0)

/-- The loop notes the fields. -/
theorem indexFields_items
    (hlen : len < 0x80000000) {items : List Item}
    (hitems : ∀ x ∈ items, x.Good) {fuel : ℕ} {index : Index}
    (h : Holds m len r (items.flatMap Item.bytes))
    (hfuel : (items.flatMap Item.bytes).length < fuel) :
    (indexFields m fuel r index).result =
      .ok (indexItems r.ptr items index) := by
  induction items generalizing r index fuel with
  | nil =>
      obtain ⟨fuel, rfl⟩ := Nat.exists_eq_add_of_le' (Nat.one_le_of_lt hfuel)
      have hempty : r.size = 0 := h.size
      rw [indexFields, if_pos hempty, indexItems]
      rfl
  | cons x items ih =>
      obtain ⟨hx, hitems⟩ := List.forall_mem_cons.mp hitems
      obtain ⟨fuel, rfl⟩ := Nat.exists_eq_add_of_le' (Nat.one_le_of_lt hfuel)
      have hbytes : (x :: items).flatMap Item.bytes =
          x.type.code ::
            (x.key ++ 0 :: (x.payload ++ items.flatMap Item.bytes)) := by
        simp [Item.bytes]
      have hx_length :
          x.bytes.length = x.key.length + x.payload.length + 2 := by
        simp only [Item.bytes, List.length_cons, List.length_append]
        omega
      rw [hbytes] at h hfuel
      simp only [List.length_cons, List.length_append] at hfuel
      have hsize : r.size ≠ 0 := by
        rw [h.size, List.length_cons]
        omega
      obtain ⟨r₁, hread₁, hr₁⟩ := h.readByte_result hlen (takeByte_cons _ _)
      obtain ⟨r₂, hread₂, hr₂⟩ := hr₁.readCstring_result hlen
        (takeCstring_append hx.key _)
      have hend₂ : SameEnd r r₂ :=
        (readByte_sameEnd _ hread₁).trans (readCstring_sameEnd _ hread₂)
      have hptr₂ := h.ptr_eq hr₂ hend₂
      simp only [List.length_cons, List.length_append] at hptr₂
      rw [indexFields, if_neg hsize, result_bind hread₁, result_bind hread₂]
      dsimp only
      rw [BsonType.ofCode_code, indexItems]
      dsimp only
      by_cases hfixed : 0 < fieldSize x.type
      · have hlength := hx.reads.length_eq hfixed
        have hskip : skipField m r₂ x.type = pure r₂ := by
          cases ht : x.type with
          | real | objectid | boolean | date | int32 | timestamp | int64 => rfl
          | string | document | array | binary | null | regex | dbpointer
          | jscode | symbol | codews | minkey | maxkey =>
              rw [ht] at hfixed
              exact absurd hfixed (Nat.lt_irrefl 0)
        have htake := takeBytes_append x.payload (items.flatMap Item.bytes)
        obtain ⟨p, r₃, hread₃, hr₃⟩ := hr₂.readBytes_result hlen
          (n := fieldSize x.type) (by omega)
          (by rw [Int.toNat_natCast, ← hlength]; exact htake)
        have hptr₃ := hr₂.ptr_eq hr₃ (readBytes_sameEnd _ _ hread₃)
        rw [List.length_append] at hptr₃
        have hid : r.ptr + x.key.length + 2 = r₂.ptr := by omega
        have hnext : r.ptr + x.bytes.length = r₃.ptr := by omega
        rw [hskip, Run.pure_bind, if_pos hfixed, result_bind hread₃,
          if_pos hfixed, hid, hnext]
        exact ih hitems hr₃ (by omega)
      · obtain ⟨r₃, hread₃, hr₃⟩ := hr₂.skipField hlen hx.reads
          (Nat.eq_zero_of_not_pos hfixed)
        have hptr₃ := hr₂.ptr_eq hr₃ (skipField_sameEnd _ _ hread₃)
        rw [List.length_append] at hptr₃
        have hnext : r.ptr + x.bytes.length = r₃.ptr := by omega
        rw [result_bind hread₃, if_neg hfixed, if_neg hfixed, hnext]
        exact ih hitems hr₃ (by omega)

/-- The index of a document of these fields. -/
theorem lmakeindex_items
    {items : List Item} (hitems : ∀ x ∈ items, x.Good)
    (hsize : (items.flatMap Item.bytes).length + 5 < 0x80000000)
    (outside : ℤ → UInt8) :
    (lmakeindex (memory (tableBytes items) outside)).result =
      .ok (indexItems 4 items []) := by
  have hlength : (tableBytes items).length =
      (items.flatMap Item.bytes).length + 5 := by
    simp only [tableBytes, List.length_append, LittleEndian.length_bytes,
      List.length_singleton]
    omega
  have hholds := (holds_memory (tableBytes items) outside).split (n := 4)
    (by omega)
  have hdrop : (tableBytes items).drop 4 =
      items.flatMap Item.bytes ++ [0] :=
    List.drop_left' (LittleEndian.length_bytes _ _)
  have hfields := (hholds.2.split
    (n := (items.flatMap Item.bytes).length) (by
      rw [hdrop, List.length_append]
      omega)).1
  rw [hdrop, List.take_left] at hfields
  have hcount : (0 : ℤ) + (4 : ℕ) = 4 := rfl
  rw [hcount] at hfields
  have hget := getLength_memory (complete_tableBytes hsize) outside
  rw [hlength] at hget
  rw [lmakeindex, hget]
  have hint : ((items.flatMap Item.bytes).length + 5 : ℕ) - 5 =
      ((items.flatMap Item.bytes).length : ℤ) := by omega
  rw [hint, result_bind (int_result (by omega) (by omega))]
  have hsmall : ((tableBytes items).length : ℤ) < 0x80000000 := by omega
  exact indexFields_items hsmall hitems hfields (by omega)

end Fields

/-! ## Looking up a field -/

/-- A field among the fields of a document. -/
structure Field where
  front : List Item
  item : Item
  rest : List Item

namespace Field

def items (p : Field) : List Item := p.front ++ p.item :: p.rest

/-- Where the value begins. -/
def offset (p : Field) : ℕ :=
  4 + (p.front.flatMap Item.bytes).length + p.item.key.length + 2

end Field

section Lookup

variable {index : Index} {f : List UInt8} {id : BitVec 32}

theorem Index.rawget_rawset (key : List UInt8) (id : BitVec 32) :
    (index.rawset key id).rawget f =
      if key = f then some id else index.rawget f := by
  rw [Index.rawset, Index.rawget, Index.rawget, List.find?_append,
    List.find?_filter]
  by_cases hkey : key = f
  · subst hkey
    have hnone : index.find? (fun e => decide
        (decide (e.1 ≠ key) = true ∧ decide (e.1 = key) = true)) = none :=
      List.find?_eq_none.mpr fun e _ => by simp
    rw [if_pos rfl, hnone]
    simp
  · have hsame : (fun e : List UInt8 × BitVec 32 => decide
        (decide (e.1 ≠ key) = true ∧ decide (e.1 = f) = true)) =
        fun e => decide (e.1 = f) := by
      funext e
      have hother : e.1 = f → e.1 ≠ key := fun he hk => hkey (hk.symm.trans he)
      simpa using hother
    rw [if_neg hkey, hsame]
    simp [hkey]

/-- An id in the index belongs to the last field of a fixed size. -/
theorem rawget_indexItems
    {items : List Item} {offset : ℤ}
    (h : (indexItems offset items index).rawget f = some id) :
    (index.rawget f = some id ∧
      ∀ x ∈ items, x.key = f → fieldSize x.type = 0) ∨
    ∃ front x rest, items = front ++ x :: rest ∧ x.key = f ∧
      0 < fieldSize x.type ∧
      id = fieldId x.type
        (offset + (front.flatMap Item.bytes).length + x.key.length + 2) ∧
      ∀ y ∈ rest, y.key = f → fieldSize y.type = 0 := by
  induction items generalizing offset index with
  | nil => exact Or.inl ⟨h, fun x hx => (List.not_mem_nil hx).elim⟩
  | cons x items ih =>
      rw [indexItems] at h
      rcases ih h with
        ⟨hold, hrest⟩ | ⟨front, y, rest, rfl, hy, hfixed, hid, hlater⟩
      · split at hold
        · rename_i hfixed
          rw [Index.rawget_rawset] at hold
          split at hold
          · rename_i hkey
            cases hold
            refine Or.inr ⟨[], x, items, rfl, hkey, hfixed, ?_, hrest⟩
            have hzero : offset + (0 : ℕ) = offset := by omega
            rw [List.flatMap_nil, List.length_nil, hzero]
          · rename_i hkey
            exact Or.inl ⟨hold, List.forall_mem_cons.mpr
              ⟨fun hx => absurd hx hkey, hrest⟩⟩
        · rename_i hfixed
          exact Or.inl ⟨hold, List.forall_mem_cons.mpr
            ⟨fun _ => Nat.eq_zero_of_not_pos hfixed, hrest⟩⟩
      · refine Or.inr ⟨x :: front, y, rest, rfl, hy, hfixed, ?_, hlater⟩
        have hsum : offset + x.bytes.length +
            (front.flatMap Item.bytes).length =
            offset + ((x :: front).flatMap Item.bytes).length := by
          rw [List.flatMap_cons, List.length_append]
          omega
        rw [hid, hsum]

/-- The id of the key of a field that is the last one with this key: it is its
own, or that of a field before it. -/
theorem Field.indexed
    {p : Field} (hlast : ∀ x ∈ p.rest, x.key ≠ p.item.key)
    (h : (indexItems 4 p.items []).rawget p.item.key = some id) :
    (0 < fieldSize p.item.type ∧ id = fieldId p.item.type p.offset) ∨
    (fieldSize p.item.type = 0 ∧ ∃ t, ∃ offset : ℕ, offset < p.offset ∧
      0 < fieldSize t ∧ id = fieldId t offset) := by
  rcases rawget_indexItems h with
    ⟨hnone, -⟩ | ⟨front, x, rest, hitems, hx, hfixed, hid, hlater⟩
  · cases hnone
  have hoffset : (4 : ℤ) + (front.flatMap Item.bytes).length + x.key.length +
      2 = (4 + (front.flatMap Item.bytes).length + x.key.length + 2 : ℕ) := rfl
  rw [hoffset] at hid
  rcases List.append_eq_append_iff.mp hitems with
    ⟨middle, hfront, htail⟩ | ⟨middle, hfront, htail⟩
  · cases middle with
    | nil =>
        cases htail
        rw [hfront, List.append_nil] at hid
        exact Or.inl ⟨hfixed, hid⟩
    | cons y middle =>
        have hrest : p.rest = middle ++ x :: rest := (List.cons.inj htail).2
        refine absurd hx (hlast x ?_)
        rw [hrest]
        exact List.mem_append_right _ List.mem_cons_self
  · cases middle with
    | nil =>
        cases htail
        rw [List.append_nil] at hfront
        rw [← hfront] at hid
        exact Or.inl ⟨hfixed, hid⟩
    | cons y middle =>
        obtain ⟨rfl, hrest⟩ := List.cons.inj htail
        refine Or.inr ⟨hlater _ ?_ rfl, x.type, _, ?_, hfixed, hid⟩
        · rw [hrest]
          exact List.mem_append_right _ List.mem_cons_self
        · have hbefore := congrArg (fun xs => (xs.flatMap Item.bytes).length)
            hfront
          simp only [List.flatMap_append, List.flatMap_cons, List.length_append]
            at hbefore
          have hbytes : x.key.length + 2 ≤ x.bytes.length := by
            simp only [Item.bytes, List.length_cons, List.length_append]
            omega
          rw [Field.offset]
          omega

end Lookup

end SkynetServer.Bson
