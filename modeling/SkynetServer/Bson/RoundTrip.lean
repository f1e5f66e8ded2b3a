import SkynetServer.Bson.Items
import SkynetServer.Bson.Tables
import SkynetServer.Support.Octets

/-!
# Decoding what was encoded

What the encoder appends for a value is read back as a value, and the values are
the same if no table loses entries as an array.  A key with a zero byte is cut
short.
-/

namespace SkynetServer.Bson

open Logged Octets Parse Integers

/-! ## Values -/

theorem zero_not_mem_numstr (i : ℕ) : 0 ∉ numstr i := by
  intro hmem
  have hdigit := Resp.isDigit_of_mem_decimal hmem
  exact absurd hdigit (by decide)

theorem digit_plain :
    ∀ c : UInt8, Resp.isDigit c = true →
      isspace c = false ∧ c ≠ 45 ∧ c ≠ 43 := by
  decide +kernel

theorem strtol_decimal {i : ℕ} (hi : i ≤ 0x7fffffff) :
    strtol (Resp.decimal i) = i := by
  have hall : ∀ c ∈ Resp.decimal i, Resp.isDigit c = true := fun c hc =>
    Resp.isDigit_of_mem_decimal hc
  have htake : (Resp.decimal i ++ []).takeWhile Resp.isDigit =
      Resp.decimal i ++ [] :=
    List.takeWhile_append_of_pos hall
  rw [List.append_nil] at htake
  have hdigits : digits (Resp.decimal i) = i := by
    rw [digits, htake, Resp.number_decimal]
  cases hd : Resp.decimal i with
  | nil => exact absurd hd (Resp.decimal_ne_nil i)
  | cons c s =>
      have hc : Resp.isDigit c = true := by
        refine hall c ?_
        rw [hd]
        exact List.mem_cons_self
      obtain ⟨hspace, hminus, hplus⟩ := digit_plain c hc
      rw [hd] at hdigits
      rw [strtol, List.dropWhile_cons_of_neg (by rw [hspace]; decide)]
      split
      · rename_i heq
        cases heq
        exact absurd rfl hminus
      · rename_i heq
        cases heq
        exact absurd rfl hplus
      · rw [hdigits]
        exact min_eq_right (by omega)

/-- The key of an element is read as its index. -/
theorem arrayIndex_numstr {i : ℕ} (hi : i + 1 < 0x80000000) :
    arrayIndex (numstr i) = .ofNat 64 (i + 1) := by
  have hmod : i % 0x100000000 = i := Nat.mod_eq_of_lt (by omega)
  have hcast : (i : ℤ) + 1 = (i + 1 : ℕ) := rfl
  rw [arrayIndex, numstr, hmod, strtol_decimal (by omega), hcast,
    BitVec.ofInt_natCast]
  apply BitVec.eq_of_toInt_eq
  rw [BitVec.toInt_signExtend_of_le (by decide), toInt_ofNat_of_lt (by omega),
    toInt_ofNat_of_lt (by omega)]

/-- The field of the value was appended, and what is read back is equal to the
value exactly if no array has lost an entry. -/
def Written (b b' : Buffer) (key : List UInt8) (v : Value) : Prop :=
  ∃ x : Item, x.key = key ∧ x.Good ∧ Adds b b' x.bytes ∧
    (Equal v x.value ↔ Exact v)

section Values

variable {b b' : Buffer} {key : List UInt8}

theorem written_atom
    {v : Value} {t : BsonType} {payload : List UInt8} {b₁ : Buffer}
    (hkey : 0 ∉ key) (h₁ : Adds b b₁ (t.code :: (key ++ [0])))
    (h : Adds b₁ b' payload) (hreads : ReadsAs t payload v)
    (hatom : ∀ border es, v ≠ .table border es) : Written b b' key v := by
  refine ⟨⟨key, t, payload, v⟩, rfl, ⟨hkey, hreads⟩, ?_, ?_⟩
  · have hadds := h₁.trans h
    rwa [List.cons_append, List.append_assoc] at hadds
  · exact iff_of_true (fun _ => rfl) (exact_atom hatom)

theorem appendInteger_ok
    {i : BitVec 64} (hvalid : b.Valid) (hkey : 0 ∉ key)
    (h : appendInteger b key i = .ok b') : Written b b' key (.integer i) := by
  rw [appendInteger] at h
  split at h
  · rename_i hrange
    obtain ⟨b₁, h₁, h⟩ := ok_bind h
    have hadds := appendKey_ok hvalid h₁
    exact written_atom hkey hadds (write_ok hadds.valid h)
      (readsAs_int32 hrange.1 hrange.2) fun _ _ h => by cases h
  · obtain ⟨b₁, h₁, h⟩ := ok_bind h
    have hadds := appendKey_ok hvalid h₁
    exact written_atom hkey hadds (write_ok hadds.valid h)
      (readsAs_int64 i) fun _ _ h => by cases h

theorem appendOne_ok
    {table : Buffer → List UInt8 → ℕ → Entries → Encode Buffer} {v : Value}
    (hvalid : b.Valid) (hkey : 0 ∉ key) (hplain : Plain v)
    (htable : ∀ border es, v = .table border es →
      table b key border es = .ok b' → Written b b' key v)
    (h : appendOne table b key v = .ok b') : Written b b' key v := by
  cases v with
  | integer i => exact appendInteger_ok hvalid hkey h
  | real bits =>
      obtain ⟨b₁, h₁, h⟩ := ok_bind h
      have hadds := appendKey_ok hvalid h₁
      exact written_atom hkey hadds (write_ok hadds.valid h)
        (readsAs_real bits) fun _ _ h => by cases h
  | boolean v =>
      obtain ⟨b₁, h₁, h⟩ := ok_bind h
      have hadds := appendKey_ok hvalid h₁
      exact written_atom hkey hadds (write_ok hadds.valid h)
        (readsAs_boolean v) fun _ _ h => by cases h
  | string str =>
      have hstr : appendOne table b key (.string str) = (do
          let b ← appendKey b BsonType.string.code key
          let off := b.bytes.length
          let b ← b.reserveLength
          let b ← writeString b str
          pure (b.writeLength (str.length + 1) off)) := by
        have hhead := hplain.strings str (.refl _)
        cases str with
        | nil => rfl
        | cons c str =>
            have hc : c ≠ 0 := fun hzero => hhead (by rw [hzero]; rfl)
            rw [appendOne]
            rintro subt str' heq
            cases heq
            exact hc rfl
      rw [hstr] at h
      obtain ⟨b₁, h₁, h⟩ := ok_bind h
      obtain ⟨b₂, h₂, h⟩ := ok_bind h
      obtain ⟨b₃, h₃, h⟩ := ok_bind h
      cases h
      have hadds := appendKey_ok hvalid h₁
      have hplace := write_ok hadds.valid h₂
      have hbytes := writeString_ok hplace.valid h₃
      have hlength := hplace.writeLength rfl hbytes (str.length + 1)
      have hsize : str.length + 1 < 0x80000000 := by
        have hfits := hlength.fits
        have hcap := hlength.cap
        rw [hlength.bytes] at hfits
        simp only [List.length_append, List.length_singleton] at hfits
        omega
      exact written_atom hkey hadds hlength (readsAs_string hsize)
        fun _ _ h => by cases h
  | table border es => exact htable border es rfl h

end Values

/-! ## Tables -/

section Tables

variable {b b' : Buffer}

/-- Fields were appended for the parts of a table, one for each. -/
def Fields {α : Type} (P : α → Item → Prop) (b b' : Buffer) (as : List α) :
    Prop :=
  ∃ items, List.Forall₂ P as items ∧ Adds b b' (items.flatMap Item.bytes)

theorem foldlM_fields
    {α : Type} {P : α → Item → Prop} {one : Buffer → α → Encode Buffer}
    {as : List α}
    (hone : ∀ a ∈ as, ∀ b b', b.Valid → one b a = .ok b' →
      ∃ x, P a x ∧ Adds b b' x.bytes)
    (hvalid : b.Valid) (h : as.foldlM one b = .ok b') : Fields P b b' as := by
  induction as generalizing b with
  | nil =>
      cases h
      exact ⟨[], .nil, hvalid.refl⟩
  | cons a as ih =>
      rw [List.foldlM_cons] at h
      obtain ⟨b₁, h₁, h⟩ := ok_bind h
      obtain ⟨x, hP, hx⟩ := hone a List.mem_cons_self b b₁ hvalid h₁
      obtain ⟨items, hitems, hadds⟩ := ih
        (fun a ha => hone a (List.mem_cons_of_mem _ ha)) hx.valid h
      exact ⟨x :: items, .cons hP hitems, hx.trans hadds⟩

theorem packTable_ok
    {α : Type} {P : α → Item → Prop} {as : List α}
    {fields : Buffer → Encode Buffer} (hvalid : b.Valid)
    (h : packTable b fields = .ok b')
    (hfields : ∀ b₁ b₂, b₁.Valid → fields b₁ = .ok b₂ → Fields P b₁ b₂ as) :
    ∃ items, List.Forall₂ P as items ∧ Adds b b' (tableBytes items) ∧
      (items.flatMap Item.bytes).length + 5 < 0x80000000 := by
  obtain ⟨b₁, h₁, h⟩ := ok_bind h
  obtain ⟨b₂, h₂, h⟩ := ok_bind h
  obtain ⟨b₃, h₃, h⟩ := ok_bind h
  cases h
  have hplace := write_ok hvalid h₁
  obtain ⟨items, hitems, hadds⟩ := hfields b₁ b₂ hplace.valid h₂
  have hbody := hadds.trans (write_ok hadds.valid h₃)
  have hsize : b₃.bytes.length - b.bytes.length =
      (items.flatMap Item.bytes).length + 5 := by
    rw [hbody.bytes, hplace.bytes]
    simp only [List.length_append, List.length_cons, List.length_nil]
    omega
  have htable := hplace.writeLength rfl hbody
    (b₃.bytes.length - b.bytes.length)
  have hbound : (items.flatMap Item.bytes).length + 5 < 0x80000000 := by
    have hfits := hbody.fits
    have hcap := hbody.cap
    rw [hbody.bytes, hplace.bytes] at hfits
    simp only [List.length_append, List.length_cons, List.length_nil] at hfits
    omega
  refine ⟨items, hitems, ?_, hbound⟩
  rw [hsize] at htable ⊢
  exact htable

theorem exists_of_forall₂
    {α β : Type} {R : α → β → Prop} {as : List α} {bs : List β} {y : β}
    (h : List.Forall₂ R as bs) (hy : y ∈ bs) : ∃ a ∈ as, R a y := by
  induction h with
  | nil => cases hy
  | cons hhead _ ih =>
      rcases List.mem_cons.mp hy with rfl | hmem
      · exact ⟨_, List.mem_cons_self, hhead⟩
      · obtain ⟨a, ha, hR⟩ := ih hmem
        exact ⟨a, List.mem_cons_of_mem _ ha, hR⟩

theorem map_eq_of_forall₂
    {α β γ : Type} {R : α → β → Prop} {f : α → γ} {g : β → γ} {as : List α}
    {bs : List β} (h : List.Forall₂ R as bs) (hR : ∀ a b, R a b → f a = g b) :
    as.map f = bs.map g := by
  induction h with
  | nil => rfl
  | cons hhead _ ih => rw [List.map_cons, List.map_cons, hR _ _ hhead, ih]

/-- The field belongs to the entry of a table. -/
structure Kept (array : Bool) (es : Entries) (k : Key) (x : Item) : Prop where
  good : x.Good
  slot : x.slot array = k
  entry : ∃ v, (k, v) ∈ es ∧ (Equal v x.value ↔ Exact v)

variable {es : Entries} {items : List Item}

theorem good_of_kept
    {array : Bool} {ks : List Key}
    (hkept : List.Forall₂ (Kept array es) ks items) : ∀ x ∈ items, x.Good := by
  intro x hx
  obtain ⟨k, -, hk⟩ := exists_of_forall₂ hkept hx
  exact hk.good

variable {border : ℕ}

/-- A table that is read from fields for entries of a table. -/
theorem equal_items_iff
    {array : Bool} {ks : List Key}
    (hes : (es.map (·.1)).Nodup) (hks : ks.Nodup)
    (hkept : List.Forall₂ (Kept array es) ks items)
    (hexact : Exact (.table border es) ↔
      es.length = ks.length ∧ ∀ e ∈ es, Exact e.2) :
    Equal (.table border es) (.table 0 (items.foldl
        (fun es x => rawset es (x.slot array) x.value) [])) ↔
      Exact (.table border es) := by
  have hslots : items.map (Item.slot array) = ks := by
    have hmap := map_eq_of_forall₂ (f := id) (g := Item.slot array) hkept
      fun k x hk => hk.slot.symm
    rw [← hmap, List.map_id]
  have hkeys :
      (items.map fun x => (x.slot array, x.value)).map (·.1) = ks := by
    rw [List.map_map, ← hslots]
    rfl
  rw [foldl_rawset (by simpa [hslots] using hks), List.nil_append, hexact,
    equal_iff_exact hes (by rwa [hkeys]) ?_]
  · rw [List.length_map, ← List.length_map (f := Item.slot array), hslots]
  · intro f hf
    obtain ⟨x, hx, rfl⟩ := List.mem_map.mp hf
    obtain ⟨k, -, hk⟩ := exists_of_forall₂ hkept hx
    obtain ⟨v, hv, hiff⟩ := hk.entry
    rw [← hk.slot] at hv
    exact ⟨v, hv, hiff⟩

variable {key : List UInt8}

/-- What was written for a table is read as a table of these entries. -/
theorem written_table
    (array : Bool)
    {b₁ : Buffer} {ks : List Key} (hkey : 0 ∉ key)
    (h₁ : Adds b b₁
      ((if array then BsonType.array else .document).code :: (key ++ [0])))
    (hadds : Adds b₁ b' (tableBytes items))
    (hsize : (items.flatMap Item.bytes).length + 5 < 0x80000000)
    (hes : (es.map (·.1)).Nodup) (hks : ks.Nodup)
    (hkept : List.Forall₂ (Kept array es) ks items)
    (hexact : Exact (.table border es) ↔
      es.length = ks.length ∧ ∀ e ∈ es, Exact e.2) :
    Written b b' key (.table border es) := by
  have hreads := readsAs_table (good_of_kept hkept) hsize array
  refine ⟨⟨key, _, _, _⟩, rfl, ⟨hkey, hreads⟩, ?_,
    equal_items_iff hes hks hkept hexact⟩
  have hall := h₁.trans hadds
  rwa [List.cons_append, List.append_assoc] at hall

theorem length_le_flatMap (items : List Item) :
    items.length ≤ (items.flatMap Item.bytes).length := by
  induction items with
  | nil => exact Nat.zero_le _
  | cons x items ih =>
      rw [List.flatMap_cons, List.length_append, List.length_cons, Item.bytes,
        List.length_cons]
      omega

theorem packArray_ok
    {one : Buffer → List UInt8 → Value → Encode Buffer}
    {b₁ : Buffer} (hkey : 0 ∉ key)
    (h₁ : Adds b b₁ (BsonType.array.code :: (key ++ [0])))
    (hes : (es.map (·.1)).Nodup) (hraw : isRawarray border es = .ok true)
    (hone : ∀ k v, (k, v) ∈ es → ∀ b b' key, b.Valid → 0 ∉ key →
      one b key v = .ok b' → Written b b' key v)
    (h : packArray one border es b₁ = .ok b') :
    Written b b' key (.table border es) := by
  let index (i : ℕ) : Key := .integer (.ofNat 64 (i + 1))
  obtain ⟨items, hitems, hadds, hsize⟩ : ∃ items,
      List.Forall₂ (fun i x => i < border ∧ x.Good ∧ x.key = numstr i ∧
        ∃ v, (index i, v) ∈ es ∧ (Equal v x.value ↔ Exact v))
        (List.range border) items ∧
      Adds b₁ b' (tableBytes items) ∧
      (items.flatMap Item.bytes).length + 5 < 0x80000000 := by
    refine packTable_ok h₁.valid h fun b b' hvalid h => ?_
    refine foldlM_fields (fun i hi b b' hvalid h => ?_) hvalid h
    cases hget : rawget es (index i) with
    | none =>
        rw [hget] at h
        cases h
    | some v =>
        rw [hget] at h
        have hmem := mem_of_rawget hget
        obtain ⟨x, hx, hgood, hadds, hiff⟩ :=
          hone _ v hmem b b' _ hvalid (zero_not_mem_numstr i) h
        exact ⟨x, ⟨List.mem_range.mp hi, hgood, hx, v, hmem, hiff⟩, hadds⟩
  have hborder : border + 1 < 0x80000000 := by
    have hlength := hitems.length_eq
    have hle := length_le_flatMap items
    rw [List.length_range] at hlength
    omega
  have hinj : ∀ i ∈ List.range border, ∀ j ∈ List.range border,
      index i = index j → i = j := by
    intro i hi j hj heq
    rw [List.mem_range] at hi hj
    have hnat := congrArg BitVec.toNat (Key.integer.inj heq)
    rw [BitVec.toNat_ofNat, BitVec.toNat_ofNat, Nat.mod_eq_of_lt (by omega),
      Nat.mod_eq_of_lt (by omega)] at hnat
    omega
  have hkept : List.Forall₂ (Kept true es) ((List.range border).map index)
      items := by
    refine List.forall₂_map_left_iff.mpr (hitems.imp ?_)
    rintro i x ⟨hi, hgood, hx, hentry⟩
    refine ⟨hgood, ?_, hentry⟩
    rw [Item.slot, if_pos rfl, hx, arrayIndex_numstr (by omega)]
  refine written_table true hkey h₁ hadds hsize hes
    (List.nodup_range.map_on hinj) hkept ?_
  rw [exact_table_iff, List.length_map, List.length_range]
  exact and_congr_left' ⟨fun h => h hraw, fun h _ => h⟩

theorem packSimpleDict_ok
    {one : Buffer → List UInt8 → Value → Encode Buffer}
    {b₁ : Buffer} (hvalid : b₁.Valid)
    (hclean : ∀ k v, (.string k, v) ∈ es → 0 ∉ k)
    (hone : ∀ k v, (k, v) ∈ es → ∀ b b' key, b.Valid → 0 ∉ key →
      one b key v = .ok b' → Written b b' key v)
    (h : packSimpleDict one es b₁ = .ok b') :
    ∃ items, List.Forall₂ (Kept false es) (es.map (·.1)) items ∧
      Adds b₁ b' (tableBytes items) ∧
      (items.flatMap Item.bytes).length + 5 < 0x80000000 := by
  obtain ⟨items, hitems, hadds, hsize⟩ : ∃ items,
      List.Forall₂ (fun e x => Kept false es e.1 x) es items ∧
      Adds b₁ b' (tableBytes items) ∧
      (items.flatMap Item.bytes).length + 5 < 0x80000000 := by
    refine packTable_ok hvalid h fun b b' hvalid h => ?_
    refine foldlM_fields (fun e he b b' hvalid h => ?_) hvalid h
    obtain ⟨k, v⟩ := e
    cases k with
    | integer i | other n => cases h
    | string key =>
        obtain ⟨x, hx, hgood, hadds, hiff⟩ :=
          hone _ v he b b' key hvalid (hclean key v he) h
        refine ⟨x, ⟨hgood, ?_, v, he, hiff⟩, hadds⟩
        rw [Item.slot, hx]
        rfl
  exact ⟨items, List.forall₂_map_left_iff.mpr hitems, hadds, hsize⟩

theorem appendTable_ok
    {room : ℕ}
    (hvalid : b.Valid) (hkey : 0 ∉ key) (hplain : Plain (.table border es))
    (hclean : CleanKeys (.table border es))
    (h : appendTable room b key border es = .ok b') :
    Written b b' key (.table border es) := by
  induction room generalizing b b' key border es with
  | zero => cases h
  | succ room ih =>
      have hone : ∀ k v, (k, v) ∈ es → ∀ b b' key, b.Valid → 0 ∉ key →
          appendOne (fun b key border es => appendTable room b key border es)
            b key v = .ok b' → Written b b' key v := by
        intro k v he b b' key hvalid hkey h
        refine appendOne_ok hvalid hkey (hplain.entry he) ?_ h
        rintro border' es' rfl htable
        exact ih hvalid hkey (hplain.entry he) (hclean.entry he) htable
      obtain ⟨raw, hraw, h⟩ := ok_bind h
      cases raw with
      | true =>
          obtain ⟨b₁, h₁, h⟩ := ok_bind h
          exact packArray_ok hkey (appendKey_ok hvalid h₁) hplain.nodup hraw
            hone h
      | false =>
          obtain ⟨b₁, h₁, h⟩ := ok_bind h
          have hadds := appendKey_ok hvalid h₁
          obtain ⟨items, hitems, htable, hsize⟩ := packSimpleDict_ok hadds.valid
            (hclean border es (.refl _)) hone h
          refine written_table false hkey hadds htable hsize
            hplain.nodup hplain.nodup hitems ?_
          rw [exact_table_iff, hraw, List.length_map]
          simp

end Tables

/-! ## Keys that are read -/

/-- What `lua_rawset` was called with: no string key with a zero byte. -/
def CleanEntries (es : Entries) : Prop :=
  ∀ e ∈ es, (∀ k, e.1 = .string k → 0 ∉ k) ∧ CleanKeys e.2

section Clean

variable {m : ℤ → UInt8}

theorem cleanKeys_table
    {border : ℕ} {es : Entries} (h : CleanEntries es) :
    CleanKeys (.table border es) := by
  intro b fs hsub k x hx
  cases hsub with
  | refl => exact (h _ hx).1 k rfl
  | entry he hsub => exact (h _ he).2 b fs hsub k x hx

theorem cleanKeys_atom
    {v : Value} (hatom : ∀ border es, v ≠ .table border es) : CleanKeys v := by
  intro b fs hsub
  cases hsub with
  | refl => exact absurd rfl (hatom b fs)
  | entry => exact absurd rfl (hatom _ _)

theorem cleanEntries_rawset
    {es : Entries} {k : Key} {v : Value} (h : CleanEntries es)
    (hk : ∀ s, k = .string s → 0 ∉ s) (hv : CleanKeys v) :
    CleanEntries (rawset es k v) := by
  intro e he
  rcases List.mem_append.mp he with hold | hnew
  · exact h e (List.mem_filter.mp hold).1
  · rw [List.mem_singleton.mp hnew]
    exact ⟨hk, hv⟩

theorem cstring_clean
    {p : ℤ} {n : ℕ} {s : List UInt8} (h : (cstring m p n).result = .ok s) :
    0 ∉ s := by
  induction n generalizing p s with
  | zero => cases h
  | succ n ih =>
      rw [cstring] at h
      obtain ⟨-, -, h⟩ := run_ok h
      split at h
      · cases h
        exact List.not_mem_nil
      · rename_i hbyte
        obtain ⟨s', hs', h⟩ := run_ok h
        cases h
        rw [List.mem_cons, not_or]
        exact ⟨Ne.symm hbyte, ih hs'⟩

theorem unpackAtom_clean (bt : BsonType) (t : Reader) :
    Returns (fun x => CleanKeys x.1) (unpackAtom m bt t) := by
  have hobject : ∀ (s : List UInt8) (t : Reader),
      Returns (fun x : Value × Reader => CleanKeys x.1)
        (pure (.string s, t) : Run _) := fun s t =>
    Returns.pure (cleanKeys_atom fun _ _ h => by cases h)
  have hmake : ∀ (bt : BsonType) (p n : ℤ) (t : Reader),
      Returns (fun x : Value × Reader => CleanKeys x.1)
        (makeObject m bt p n >>= fun v => pure (v, t)) := by
    intro bt p n t x hx
    obtain ⟨v, hv, hx⟩ := run_ok hx
    obtain ⟨s, -, hv⟩ := run_ok hv
    cases hv
    cases hx
    exact cleanKeys_atom fun _ _ h => by cases h
  cases bt with
  | real | int64 | boolean | int32 =>
      exact .bind fun _ => .pure (cleanKeys_atom fun _ _ h => by cases h)
  | date => exact .bind fun _ => hobject _ _
  | minkey | maxkey | null => exact hobject _ _
  | objectid => exact .bind fun _ => hmake _ _ _ _
  | regex | timestamp => exact .bind fun _ => .bind fun _ => hobject _ _
  | string =>
      refine .bind fun x => ?_
      dsimp only
      split
      · exact .fail _
      · exact .bind fun _ => .bind fun _ => hobject _ _
  | binary =>
      exact .bind fun _ => .bind fun _ => .bind fun _ => .bind fun _ =>
        hobject _ _
  | dbpointer =>
      exact .bind fun _ => .bind fun _ => .bind fun _ => .bind fun _ =>
        hmake _ _ _ _
  | jscode | symbol | codews =>
      exact .bind fun _ => .bind fun _ => .bind fun _ => hmake _ _ _ _
  | document | array => exact .fail _

theorem unpack_clean (fuel : ℕ) :
    (∀ r array, Returns (fun x => CleanKeys x.1) (unpackDict m fuel r array)) ∧
    (∀ r array es, CleanEntries es →
      Returns CleanEntries (unpackFields m fuel r array es)) := by
  induction fuel with
  | zero =>
      refine ⟨fun r array => ?_, fun r array es _ => ?_⟩
      · rw [unpackDict]
        exact .fail _
      · rw [unpackFields]
        exact .fail _
  | succ fuel ih =>
      obtain ⟨ihDict, ihFields⟩ := ih
      refine ⟨fun r array => ?_, fun r array es hes => ?_⟩
      · rw [unpackDict]
        refine .bind fun _ => .bind fun _ => .bind fun _ => .bind fun _ =>
          .bind fun x => ?_
        dsimp only
        split
        · exact .fail _
        · intro y hy
          obtain ⟨es, hes, hy⟩ := run_ok hy
          cases hy
          have hclean := ihFields _ array [] (fun _ h => by cases h) es hes
          exact cleanKeys_table hclean
      · rw [unpackFields]
        split
        · exact .pure hes
        refine .bind fun bt => ?_
        intro fs hfs
        obtain ⟨key, hkey, hfs⟩ := run_ok hfs
        obtain ⟨s, hs, hkey⟩ := run_ok hkey
        obtain ⟨r', -, hkey⟩ := run_ok hkey
        cases hkey
        have hslot : ∀ k, (if array then Key.integer (arrayIndex s)
            else .string s) = .string k → 0 ∉ k := by
          intro k hk
          split at hk
          · cases hk
          · cases hk
            exact cstring_clean hs
        dsimp only at hfs
        split at hfs
        · cases hfs
        · rename_i t ht
          obtain ⟨x, hx, hfs⟩ := run_ok hfs
          have hvalue : CleanKeys x.1 := by
            have hatom := unpackAtom_clean (m := m) t r' x
            cases t with
            | document | array => exact ihDict _ _ x hx
            | _ => exact hatom hx
          exact ihFields _ array _ (cleanEntries_rawset hes hslot hvalue) fs hfs

theorem ldecode_clean {w : Value} (h : (ldecode m).result = .ok w) :
    CleanKeys w := by
  obtain ⟨x, hx, hw⟩ := run_ok h
  cases hw
  exact (unpack_clean _).1 _ false x hx

end Clean

/-! ## Documents -/

/-- Encoding a table with clean keys, and decoding the document. -/
theorem ldecode_lencode
    {es : Entries} {document : List UInt8} (hplain : Plain (.table 0 es))
    (hclean : CleanKeys (.table 0 es)) (h : lencode es = .ok document)
    (outside : ℤ → UInt8) :
    ∃ w, (ldecode (memory document outside)).result = .ok w ∧
      (Equal (.table 0 es) w ↔ Exact (.table 0 es)) := by
  obtain ⟨b, hb, h⟩ := ok_bind h
  cases h
  have hone : ∀ k v, (k, v) ∈ es → ∀ b b' key, b.Valid → 0 ∉ key →
      appendOne (appendTable 128) b key v = .ok b' → Written b b' key v := by
    intro k v he b b' key hvalid hkey h
    refine appendOne_ok hvalid hkey (hplain.entry he) ?_ h
    rintro border es' rfl htable
    exact appendTable_ok hvalid hkey (hplain.entry he) (hclean.entry he) htable
  obtain ⟨items, hitems, hadds, hsize⟩ := packSimpleDict_ok
    Buffer.valid_create (hclean 0 es (.refl _)) hone hb
  have hdocument : b.bytes = tableBytes items := hadds.bytes
  have hexact : Exact (.table 0 es) ↔
      es.length = (es.map (·.1)).length ∧ ∀ e ∈ es, Exact e.2 := by
    have hraw : isRawarray 0 es = .ok false := rfl
    rw [exact_table_iff, hraw, List.length_map]
    simp
  rw [hdocument]
  exact ⟨_, ldecode_items (good_of_kept hitems) hsize outside,
    equal_items_iff hplain.nodup hplain.nodup hitems hexact⟩

/-- Whatever is around the document, decoding it gives back the table if and
only if no key has a zero byte and no array has other entries than those up to
its border. -/
theorem roundtrip_iff
    (es : Entries) (hplain : Plain (.table 0 es)) (document : List UInt8)
    (h : lencode es = .ok document) (outside : ℤ → UInt8) :
    (∃ w, (ldecode (memory document outside)).result = .ok w ∧
        Equal (.table 0 es) w) ↔
      CleanKeys (.table 0 es) ∧ Exact (.table 0 es) := by
  constructor
  · rintro ⟨w, hw, hequal⟩
    have hclean := (ldecode_clean hw).of_equal hplain hequal
    obtain ⟨w', hw', hiff⟩ := ldecode_lencode hplain hclean h outside
    rw [hw] at hw'
    cases hw'
    exact ⟨hclean, hiff.mp hequal⟩
  · rintro ⟨hclean, hexact⟩
    obtain ⟨w, hw, hiff⟩ := ldecode_lencode hplain hclean h outside
    exact ⟨w, hw, hiff.mpr hexact⟩

/-- An array and a dictionary in a table. -/
def nestedTables : Entries :=
  [(.string [97], .table 1 [(.integer 1, .boolean true)]),
    (.string [98], .table 0 [(.string [99], .string [120])])]

theorem roundtrip_nestedTables :
    ∃ document w, lencode nestedTables = .ok document ∧
      (ldecode (memory document fun _ => 0)).result = .ok w ∧
      Equal (.table 0 nestedTables) w := by
  have hbool : ∀ b border es, Value.boolean b ≠ .table border es :=
    fun _ _ _ h => by cases h
  have hstring : ∀ s border es, Value.string s ≠ .table border es :=
    fun _ _ _ h => by cases h
  have hplain : Plain (.table 0 nestedTables) := by
    refine plain_table (by decide) (List.forall_mem_cons.mpr
      ⟨?_, List.forall_mem_singleton.mpr ?_⟩)
    · refine plain_table (by decide) (List.forall_mem_singleton.mpr ?_)
      exact plain_atom (hbool true) fun _ h => by cases h
    · refine plain_table (by decide) (List.forall_mem_singleton.mpr ?_)
      refine plain_atom (hstring [120]) fun s h => ?_
      cases h
      decide
  have hclean : CleanKeys (.table 0 nestedTables) := by
    refine cleanKeys_table (List.forall_mem_cons.mpr
      ⟨⟨?_, ?_⟩, List.forall_mem_singleton.mpr ⟨?_, ?_⟩⟩)
    · intro k hk
      cases hk
      decide
    · refine cleanKeys_table (List.forall_mem_singleton.mpr ⟨?_, ?_⟩)
      · exact fun k hk => by cases hk
      · exact cleanKeys_atom (hbool true)
    · intro k hk
      cases hk
      decide
    · refine cleanKeys_table (List.forall_mem_singleton.mpr ⟨?_, ?_⟩)
      · intro k hk
        cases hk
        decide
      · exact cleanKeys_atom (hstring [120])
  have hexact : Exact (.table 0 nestedTables) := by
    refine exact_table_iff.mpr ⟨fun h => ?_, ?_⟩
    · cases h
    · refine List.forall_mem_cons.mpr
        ⟨?_, List.forall_mem_singleton.mpr ?_⟩
      · refine exact_table_iff.mpr ⟨fun _ => rfl, ?_⟩
        exact List.forall_mem_singleton.mpr (exact_atom (hbool true))
      · refine exact_table_iff.mpr ⟨fun h => ?_, ?_⟩
        · cases h
        · exact List.forall_mem_singleton.mpr (exact_atom (hstring [120]))
  have hencode : lencode nestedTables =
      .ok [34, 0, 0, 0, 4, 97, 0, 9, 0, 0, 0, 8, 48, 0, 1, 0, 3, 98, 0, 14, 0,
        0, 0, 2, 99, 0, 2, 0, 0, 0, 120, 0, 0, 0] := by
    rfl
  obtain ⟨w, hw⟩ := (roundtrip_iff nestedTables hplain _ hencode
    fun _ => 0).mpr ⟨hclean, hexact⟩
  exact ⟨_, w, hencode, hw⟩

/-- A table whose border is visited last, behind a string key. -/
def mixedTable : Entries :=
  [(.string [97], .table 1 [(.string [120], .boolean true),
    (.integer 1, .boolean false)])]

/-- A key with a zero byte inside. -/
def zeroKey : Entries := [(.string [107, 0, 122], .boolean true)]

/-- The mixed table is written as an array, without its string key; the document
with the zero byte is not even accepted. -/
theorem roundtrip_fails :
    (∃ document, lencode mixedTable = .ok document ∧
      ¬∃ w, (ldecode (memory document fun _ => 0)).result = .ok w ∧
        Equal (.table 0 mixedTable) w) ∧
    (∃ document, lencode zeroKey = .ok document ∧
      ¬∃ w, (ldecode (memory document fun _ => 0)).result = .ok w ∧
        Equal (.table 0 zeroKey) w) := by
  constructor
  · refine ⟨[17, 0, 0, 0, 4, 97, 0, 9, 0, 0, 0, 8, 48, 0, 0, 0, 0], rfl, ?_⟩
    rintro ⟨w, hw, hequal⟩
    have hdecode : (ldecode (memory
        [17, 0, 0, 0, 4, 97, 0, 9, 0, 0, 0, 8, 48, 0, 0, 0, 0]
        fun _ => 0)).result =
        .ok (.table 0 [(.string [97], .table 0 [(.integer 1, .boolean false)])])
      := rfl
    rw [hdecode] at hw
    cases hw
    have hfound := hequal [.string [97], .string [120]]
    cases hfound
  · refine ⟨[11, 0, 0, 0, 8, 107, 0, 122, 0, 1, 0], rfl, ?_⟩
    rintro ⟨w, hw, -⟩
    have hdecode : (ldecode (memory [11, 0, 0, 0, 8, 107, 0, 122, 0, 1, 0]
        fun _ => 0)).result = .error .raised := rfl
    rw [hdecode] at hw
    cases hw

end SkynetServer.Bson
