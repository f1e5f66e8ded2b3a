import SkynetServer.Sproto.DecodeFields

/-!
# What is encoded is decoded

Every plain table that fits a loaded type is read back from the bytes it was
encoded to, in whatever buffer they were written.
-/

namespace SkynetServer.Sproto

open LittleEndian Seri

/-! ## Tables that fit a type -/

section Fits

variable (sp : Sproto) (fits : SprotoType → Value → Prop)

/-- The value of a field that is no array, or of an element. -/
def FitsValue (f : Field) (v : Value) : Prop :=
  match f.type with
  | .integer => ∃ x, v = .atom (.integer x)
  | .boolean => ∃ b, v = .atom (.boolean b)
  | .string => ∃ str, v = .atom (.string str)
  | .struct st => fits (sp.type st) v

/-- The keys of the table are the integers from 1 to `n`. -/
def Dense (es : Entries) (n : ℕ) : Prop :=
  n < 2 ^ 63 ∧ ∀ k, Value.rawget es k ≠ .atom .nil ↔
    ∃ i, 0 < i ∧ i ≤ n ∧ k = .integer (BitVec.ofNat 64 i)

/-- An array without holes. -/
def FitsArray (f : Field) (v : Value) : Prop :=
  ∃ border es n, v = .table border es ∧ Plain es ∧ Dense es n ∧
    ∀ k, Value.rawget es k ≠ .atom .nil →
      FitsValue sp fits f (Value.rawget es k)

/-- A map from the values of a field of its elements to them. -/
def FitsKeyed (st key : ℕ) (v : Value) : Prop :=
  ∃ border es, v = .table border es ∧ Plain es ∧
    ∀ k, Value.rawget es k ≠ .atom .nil →
      fits (sp.type st) (Value.rawget es k) ∧
        ∃ g ∈ (sp.type st).f, g.tag = key ∧
          getfield (Value.rawget es k) g.name = .ok (.atom k)

/-- The value of a field.  An integer has no decimal part, and only an array
of structs has a key. -/
def FitsField (f : Field) (v : Value) : Prop :=
  (f.type = .integer → f.extra = 0) ∧
    match f.array, f.key with
    | false, none => FitsValue sp fits f v
    | true, none => FitsArray sp fits f v
    | true, some key => ∃ st, f.type = .struct st ∧ FitsKeyed sp fits st key v
    | false, some _ => False

end Fits

/-- The table has no other keys than the fields of the type, each with a value
that fits it, and structs are nested at most `level` deep. -/
def Fits (sp : Sproto) : ℕ → SprotoType → Value → Prop
  | 0, st, v => st.f = [] ∧ ∃ border, v = .table border []
  | level + 1, st, v =>
    ∃ border es, v = .table border es ∧ Plain es ∧
      (∀ k, Value.rawget es k ≠ .atom .nil → ∃ f ∈ st.f, k = .string f.name) ∧
      ∀ f ∈ st.f, Value.rawget es (.string f.name) ≠ .atom .nil →
        FitsField sp (Fits sp level) f (Value.rawget es (.string f.name))

/-! ## The code of a field -/

/-- The state after a field. -/
def DecodeUd.after (self : DecodeUd) (f : Field) (v : Value) : DecodeUd :=
  if f.array then
    { self with
      arrayTag := some f.tag
      result := Value.setKey self.result (.string f.name) v }
  else self.withValue f v

/-- A value is written to the cell, and read back from it. -/
structure FieldCode (sp : Sproto) (numbers : Numbers) (level : ℕ) (f : Field)
    (v : Value) (cell : Cell) (v' : Value) : Prop where
  writes : ∀ (self : EncodeUd) border es, self.tbl = .table border es →
    Value.rawget es (.string f.name) = v → self.arrayTag ≠ some f.tag →
    ∃ self', FieldWrites (encode sp numbers level) f cell self self' ∧
      self'.tbl = self.tbl ∧
      (self'.arrayTag = self.arrayTag ∨ self'.arrayTag = some f.tag)
  reads : cell.code.length < 2 ^ 32 → ∀ self : DecodeUd,
    self.arrayTag ≠ some f.tag →
    FieldReads (decode sp numbers level) f cell self (self.after f v')
  small : cell.Small
  present : cell.sz ≠ 0
  same : Same v v'
  shape : f.array = true → ∃ es, v' = .table 0 es

/-- A table is written to the bytes, and read back from them.  The value of
its main index is kept for the array it is in. -/
structure StructCode (sp : Sproto) (numbers : Numbers) (level : ℕ)
    (st : SprotoType) (v : Value) (bs : List UInt8) (es : Entries) :
    Prop where
  writes : ∃ ud, Writes (fun buffer => sprotoEncode (encode sp numbers level)
    st buffer ⟨v, none, [], []⟩) bs ud
  reads : bs.length < 2 ^ 32 → ∀ mainindex, ∃ ud,
    sprotoDecode (decode sp numbers level) st bs
        ⟨none, [], mainindex, .atom .nil⟩ = .ok (some (bs.length, ud)) ∧
      ud.result = es ∧
      ∀ g ∈ st.f, mainindex = some g.tag → ∀ a : Atom, a ≠ .nil →
        getfield v g.name = .ok (.atom a) → ud.key = .atom a
  same : Same v (.table 0 es)

section Values

variable {sp : Sproto} {numbers : Numbers} {level : ℕ} {f : Field}

/-- The callback is asked for the value of the field. -/
theorem encode_scalar
    {self : EncodeUd} {border : ℕ} {es : Entries} {v : Value}
    (htbl : self.tbl = .table border es)
    (hget : Value.rawget es (.string f.name) = v) (hv : v ≠ .atom .nil)
    (value : List UInt8) :
    encode sp numbers (level + 1) { f.args with value := value } self =
      encodeValue numbers (encodeStruct sp numbers level)
        { f.args with value := value } v self := by
  refine encode_value ?_ hv
  rw [← hget]
  exact fetch_field rfl htbl

theorem after_value (harray : f.array = false) (self : DecodeUd) (v : Value) :
    self.after f v = self.withValue f v := by
  rw [DecodeUd.after, harray, if_neg Bool.false_ne_true]

theorem after_array (harray : f.array = true) (self : DecodeUd)
    (es : Entries) : self.after f (.table 0 es) = self.withArray f es := by
  rw [DecodeUd.after, harray, if_pos rfl]
  rfl

theorem atom_ne_nil {a : Atom} (h : a ≠ .nil) :
    Value.atom a ≠ .atom .nil := fun heq => h (Value.atom.inj heq)

theorem integerCell_small (x : BitVec 64) :
    (integerCell x).Small ∧ (integerCell x).sz ≠ 0 := by
  unfold integerCell
  split
  · split
    · rename_i hlt
      exact ⟨hlt, Nat.succ_ne_zero 1⟩
    · exact ⟨trivial, Nat.succ_ne_zero _⟩
  · exact ⟨trivial, Nat.succ_ne_zero _⟩

theorem fieldCode_integer
    (harray : f.array = false) (htype : f.type = .integer)
    (hextra : f.extra = 0) (x : BitVec 64) :
    FieldCode sp numbers (level + 1) f (.atom (.integer x)) (integerCell x)
      (.atom (.integer x)) where
  writes := by
    intro self border es htbl hget _
    refine ⟨self, fieldWrites_integer harray htype fun value => ?_, rfl,
      .inl rfl⟩
    rw [encode_scalar htbl hget (atom_ne_nil (by intro h; cases h)) value]
    exact encodeValue_integer htype hextra x
  reads := by
    intro _ self _
    rw [after_value harray]
    exact fieldReads_integer harray htype hextra
  small := (integerCell_small x).1
  present := (integerCell_small x).2
  same := .atom _
  shape := fun h => absurd (harray.symm.trans h) Bool.false_ne_true

theorem fieldCode_boolean
    (harray : f.array = false) (htype : f.type = .boolean) (b : Bool) :
    FieldCode sp numbers (level + 1) f (.atom (.boolean b)) (.inline b.toNat)
      (.atom (.boolean b)) where
  writes := by
    intro self border es htbl hget _
    refine ⟨self, fieldWrites_boolean harray htype fun value => ?_, rfl,
      .inl rfl⟩
    rw [encode_scalar htbl hget (atom_ne_nil (by intro h; cases h)) value]
    exact encodeValue_boolean htype b
  reads := by
    intro _ self _
    rw [after_value harray]
    exact fieldReads_boolean harray htype
  small := Nat.lt_of_le_of_lt (Bool.toNat_le b) (by decide)
  present := Nat.succ_ne_zero 1
  same := .atom _
  shape := fun h => absurd (harray.symm.trans h) Bool.false_ne_true

theorem fieldCode_string
    (harray : f.array = false) (htype : f.type = .string) (str : List UInt8) :
    FieldCode sp numbers (level + 1) f (.atom (.string str)) (.data str)
      (.atom (.string str)) where
  writes := by
    intro self border es htbl hget _
    have hobject : f.type ≠ .integer ∧ f.type ≠ .boolean := by
      rw [htype]
      decide
    refine ⟨self, fieldWrites_object harray hobject (fun value => ?_)
      (answers_string str), rfl, .inl rfl⟩
    rw [encode_scalar htbl hget (atom_ne_nil (by intro h; cases h)) value]
    exact encodeValue_string htype str
  reads := by
    intro hlength self _
    have hobject : f.type ≠ .integer ∧ f.type ≠ .boolean := by
      rw [htype]
      decide
    rw [Cell.code, length_objectCode] at hlength
    rw [after_value harray]
    refine fieldReads_object harray hobject (by omega) ?_
    exact decode_field.trans (decodeValue_string htype)
  small := trivial
  present := Nat.succ_ne_zero _
  same := .atom _
  shape := fun h => absurd (harray.symm.trans h) Bool.false_ne_true

theorem fieldCode_struct
    {st : ℕ} {v : Value} {bs : List UInt8} {es' : Entries}
    (harray : f.array = false) (htype : f.type = .struct st)
    (hkey : f.key = none) (hv : v ≠ .atom .nil)
    (h : StructCode sp numbers level (sp.type st) v bs es') :
    FieldCode sp numbers (level + 1) f v (.data bs) (.table 0 es') where
  writes := by
    intro self border es htbl hget _
    obtain ⟨ud, hwrites⟩ := h.writes
    have hobject : f.type ≠ .integer ∧ f.type ≠ .boolean := by
      rw [htype]
      exact ⟨fun h => (by cases h), fun h => (by cases h)⟩
    refine ⟨self, fieldWrites_object harray hobject (fun value => ?_)
      (answers_struct hwrites), rfl, .inl rfl⟩
    rw [encode_scalar htbl hget hv value]
    exact encodeValue_struct htype v
  reads := by
    intro hlength self _
    have hobject : f.type ≠ .integer ∧ f.type ≠ .boolean := by
      rw [htype]
      exact ⟨fun h => (by cases h), fun h => (by cases h)⟩
    rw [Cell.code, length_objectCode] at hlength
    obtain ⟨ud, hread, rfl, -⟩ := h.reads (by omega) none
    rw [after_value harray]
    refine fieldReads_object harray hobject (by omega) ?_
    exact decode_field.trans (decodeValue_struct htype hkey hread)
  small := trivial
  present := Nat.succ_ne_zero _
  same := h.same
  shape := fun h => absurd (harray.symm.trans h) Bool.false_ne_true

end Values

/-! ## The code of an array -/

section Elements

variable {α : Type*} {dec : α → Value} {pair : ℕ → α → Atom × Value}

theorem mem_pairs {i : ℕ} {xs : List α} {p : Atom × Value} :
    p ∈ pairs pair i xs ↔ ∃ j x, xs[j]? = some x ∧ p = pair (i + j) x := by
  induction xs generalizing i with
  | nil =>
      constructor
      · intro h
        cases h
      · rintro ⟨j, x, hx, -⟩
        cases hx
  | cons y ys ih =>
      rw [pairs, List.mem_cons, ih]
      constructor
      · rintro (rfl | ⟨j, x, hx, rfl⟩)
        · exact ⟨0, y, rfl, rfl⟩
        · refine ⟨j + 1, x, hx, ?_⟩
          rw [Nat.add_assoc, Nat.add_comm 1 j]
      · rintro ⟨j, x, hx, rfl⟩
        cases j with
        | zero =>
            cases hx
            exact .inl rfl
        | succ j =>
            refine .inr ⟨j, x, hx, ?_⟩
            rw [Nat.add_assoc, Nat.add_comm 1 j]

/-- The elements of an array in order. -/
def Lists (es : Entries) (n : ℕ) (g : α → Value) (xs : List α) : Prop :=
  xs.length = n ∧ ∀ j x, xs[j]? = some x → Value.rawgeti es (j + 1) = g x

theorem exists_lists
    {es : Entries} {n : ℕ} {g : α → Value}
    (h : ∀ i, 0 < i → i ≤ n → ∃ x, Value.rawgeti es i = g x) :
    ∃ xs, Lists es n g xs := by
  induction n with
  | zero =>
      refine ⟨[], rfl, fun j x hx => ?_⟩
      cases hx
  | succ n ih =>
      obtain ⟨xs, hlength, hget⟩ := ih fun i hi hle => h i hi (by omega)
      obtain ⟨x, hx⟩ := h (n + 1) (Nat.succ_pos n) (Nat.le_refl _)
      refine ⟨xs ++ [x], by rw [List.length_append, hlength]; rfl, ?_⟩
      intro j y hy
      rw [List.getElem?_append] at hy
      split at hy
      · exact hget j y hy
      · rename_i hge
        have hj : j = xs.length := by
          have hlt := (List.getElem?_eq_some_iff.1 hy).1
          rw [List.length_singleton] at hlt
          omega
        rw [hj, Nat.sub_self] at hy
        cases hy
        rw [hj, hlength]
        exact hx

variable {es : Entries} {n : ℕ} {g : α → Value} {xs : List α}

theorem Dense.rawgeti_ne_nil
    (h : Dense es n) {i : ℕ} (hi : 0 < i) (hle : i ≤ n) :
    Value.rawgeti es i ≠ .atom .nil :=
  (h.2 _).2 ⟨i, hi, hle, rfl⟩

theorem Dense.rawgeti_eq_nil (h : Dense es n) :
    Value.rawgeti es (n + 1) = .atom .nil := by
  by_contra hne
  obtain ⟨i, hi, hle, heq⟩ := (h.2 _).1 hne
  have hlt := h.1
  have := integer_inj (by omega) (by omega) (Atom.integer.inj heq)
  omega

/-- What the callback is asked for at each index. -/
theorem Lists.rawgeti (h : Lists es n g xs) (hdense : Dense es n) :
    ∀ j ≤ xs.length, Value.rawgeti es (1 + j) =
      ((xs.map g)[j]?).getD (.atom .nil) := by
  intro j hj
  rw [Nat.add_comm, List.getElem?_map]
  cases hx : xs[j]? with
  | none =>
      have hj' : j = n := by
        have := List.getElem?_eq_none_iff.1 hx
        have := h.1
        omega
      rw [hj']
      exact hdense.rawgeti_eq_nil
  | some x => exact h.2 j x hx

/-- The table that is built from the elements is the same. -/
theorem Lists.same
    (h : Lists es n g xs) (hplain : Plain es) (hdense : Dense es n)
    (hdec : ∀ x ∈ xs, Same (g x) (dec x)) (border border' : ℕ) :
    Same (.table border es)
      (.table border' (build [] (pairs (indexed dec) 1 xs))) := by
  refine hplain.same_build ?_ ?_ border border'
  · intro p hp
    obtain ⟨j, x, hx, rfl⟩ := mem_pairs.1 hp
    have hget := h.2 j x hx
    have hlt := (List.getElem?_eq_some_iff.1 hx).1
    have hne := hdense.rawgeti_ne_nil (Nat.succ_pos j) (by rw [← h.1]; exact hlt)
    rw [indexed, Nat.add_comm 1 j]
    refine ⟨hne, ?_⟩
    have hvalue : Value.rawget es (.integer (BitVec.ofNat 64 (j + 1))) = g x :=
      hget
    rw [hvalue]
    exact hdec x (List.mem_of_getElem? hx)
  · intro k hk
    obtain ⟨i, hi, hle, rfl⟩ := (hdense.2 k).1 hk
    obtain ⟨x, hx⟩ : ∃ x, xs[i - 1]? = some x := by
      refine ⟨_, List.getElem?_eq_getElem ?_⟩
      rw [h.1]
      omega
    refine ⟨dec x, mem_pairs.2 ⟨i - 1, x, hx, ?_⟩⟩
    rw [indexed, Nat.add_sub_cancel' hi]

end Elements

section Arrays

variable {sp : Sproto} {numbers : Numbers} {level : ℕ} {f : Field}
  {border n : ℕ} {es : Entries}

/-- The state after an array was written. -/
theorem opened_state (self : EncodeUd) (tag : ℕ) (array iter : Entries) :
    (self.opened tag array iter).tbl = self.tbl ∧
      ((self.opened tag array iter).arrayTag = self.arrayTag ∨
        (self.opened tag array iter).arrayTag = some tag) :=
  ⟨rfl, .inr rfl⟩

theorem fieldCode_integers
    {xs : List (BitVec 64)} (harray : f.array = true)
    (htype : f.type = .integer) (hextra : f.extra = 0) (hkey : f.key = none)
    (hplain : Plain es) (hdense : Dense es n)
    (hlists : Lists es n (fun x => .atom (.integer x)) xs) :
    FieldCode sp numbers (level + 1) f (.table border es)
      (.data (integersBlock xs)) (.table 0 (build []
        (pairs (indexed fun x => .atom (.integer x)) 1 xs))) where
  writes := by
    intro self border' es' htbl hget htag
    refine ⟨_, fieldWrites_array harray ?_, opened_state self f.tag es es⟩
    have hanswer : AnswersFor sp numbers level f.args
        (fun x => .atom (.integer x)) integerAnswer xs := fun x _ =>
      ⟨atom_ne_nil (by intro h; cases h), fun i value self =>
        encodeValue_integer htype hextra x⟩
    have hfeeds := feeds_first htbl htag hget (feeds_index Nat.one_pos hkey
      hanswer (hlists.rawgeti hdense))
    have hargs : f.args.type = .integer := htype
    unfold encodeElements
    rw [hargs]
    exact writes_integers hfeeds
  reads := by
    intro hlength self htag
    rw [Cell.code, length_objectCode] at hlength
    rw [after_array harray]
    exact fieldReads_integers harray htype hextra htag (by omega)
  small := trivial
  present := Nat.succ_ne_zero _
  same := hlists.same hplain hdense (fun x _ => .atom _) _ _
  shape := fun _ => ⟨_, rfl⟩

theorem fieldCode_booleans
    {bs : List Bool} (harray : f.array = true) (htype : f.type = .boolean)
    (hkey : f.key = none) (hplain : Plain es) (hdense : Dense es n)
    (hlists : Lists es n (fun b => .atom (.boolean b)) bs) :
    FieldCode sp numbers (level + 1) f (.table border es)
      (.data (bs.map booleanCode)) (.table 0 (build []
        (pairs (indexed fun b => .atom (.boolean b)) 1 bs))) where
  writes := by
    intro self border' es' htbl hget htag
    refine ⟨_, fieldWrites_array harray ?_, opened_state self f.tag es es⟩
    have hanswer : AnswersFor sp numbers level f.args
        (fun b => .atom (.boolean b)) booleanAnswer bs := fun b _ =>
      ⟨atom_ne_nil (by intro h; cases h), fun i value self =>
        encodeValue_boolean htype b⟩
    have hfeeds := feeds_first htbl htag hget (feeds_index Nat.one_pos hkey
      hanswer (hlists.rawgeti hdense))
    have hargs : f.args.type = .boolean := htype
    unfold encodeElements
    rw [hargs]
    exact writes_booleans hfeeds
  reads := by
    intro hlength self htag
    rw [Cell.code, length_objectCode, List.length_map] at hlength
    rw [after_array harray]
    exact fieldReads_booleans harray htype htag (by omega)
  small := trivial
  present := Nat.succ_ne_zero _
  same := hlists.same hplain hdense (fun b _ => .atom _) _ _
  shape := fun _ => ⟨_, rfl⟩

theorem encodeElements_object
    {σ : Type*} {cb : Arg → σ → Except Failure (Reply σ)} {ud : σ}
    (htype : f.type ≠ .integer ∧ f.type ≠ .boolean) :
    (fun buffer => encodeElements cb f.args buffer ud) = fun buffer =>
      encodeObjects cb f.args (buffer.length + 1) buffer 0 1 ud := by
  funext buffer
  unfold encodeElements
  split
  · rename_i h
    exact absurd h htype.1
  · rename_i h
    exact absurd h htype.2
  · rfl

theorem fieldCode_strings
    {strs : List (List UInt8)} (harray : f.array = true)
    (htype : f.type = .string) (hkey : f.key = none)
    (hplain : Plain es) (hdense : Dense es n)
    (hlists : Lists es n (fun str => .atom (.string str)) strs) :
    FieldCode sp numbers (level + 1) f (.table border es)
      (.data (strs.flatMap (objectCode ∘ id))) (.table 0 (build []
        (pairs (indexed fun str => .atom (.string str)) 1 strs))) where
  writes := by
    intro self border' es' htbl hget htag
    refine ⟨_, fieldWrites_array harray ?_, opened_state self f.tag es es⟩
    have hanswer : AnswersFor sp numbers level f.args
        (fun str => .atom (.string str)) stringAnswer strs := fun str _ =>
      ⟨atom_ne_nil (by intro h; cases h), fun i value self =>
        encodeValue_string htype str⟩
    have hfeeds := feeds_first htbl htag hget (feeds_index Nat.one_pos hkey
      hanswer (hlists.rawgeti hdense))
    rw [encodeElements_object (by rw [htype]; decide)]
    exact writes_objects (fun str _ => answers_string str) hfeeds
  reads := by
    intro hlength self htag
    rw [Cell.code, length_objectCode] at hlength
    rw [after_array harray]
    refine fieldReads_objects harray (by rw [htype]; decide) htag (by omega)
      fun str _ i es hi => ?_
    exact (decodeValue_string htype).trans (putValue_element hi _)
  small := trivial
  present := Nat.succ_ne_zero _
  same := hlists.same hplain hdense (fun str _ => .atom _) _ _
  shape := fun _ => ⟨_, rfl⟩

variable {st : ℕ} {code : Value → List UInt8} {dec : Value → Entries}

theorem struct_type (htype : f.type = .struct st) :
    f.type ≠ .integer ∧ f.type ≠ .boolean := by
  rw [htype]
  exact ⟨fun h => (by cases h), fun h => (by cases h)⟩

theorem fieldCode_structs
    {vs : List Value} (harray : f.array = true) (htype : f.type = .struct st)
    (hkey : f.key = none) (hplain : Plain es) (hdense : Dense es n)
    (hlists : Lists es n id vs)
    (hvs : ∀ v ∈ vs, v ≠ .atom .nil ∧
      StructCode sp numbers level (sp.type st) v (code v) (dec v)) :
    FieldCode sp numbers (level + 1) f (.table border es)
      (.data (vs.flatMap (objectCode ∘ code))) (.table 0 (build []
        (pairs (indexed fun v => .table 0 (dec v)) 1 vs))) where
  writes := by
    intro self border' es' htbl hget htag
    refine ⟨_, fieldWrites_array harray ?_, opened_state self f.tag es es⟩
    have hanswer : AnswersFor sp numbers level f.args id
        (structAnswer sp numbers level st) vs := fun v hv =>
      ⟨(hvs v hv).1, fun i value self => encodeValue_struct htype v⟩
    have hfeeds := feeds_first htbl htag hget (feeds_index Nat.one_pos hkey
      hanswer (hlists.rawgeti hdense))
    rw [encodeElements_object (struct_type htype)]
    refine writes_objects (fun v hv => ?_) hfeeds
    obtain ⟨ud, hwrites⟩ := (hvs v hv).2.writes
    exact answers_struct hwrites
  reads := by
    intro hlength self htag
    rw [Cell.code, length_objectCode] at hlength
    rw [after_array harray]
    refine fieldReads_objects harray (struct_type htype) htag (by omega)
      fun v hv i es hi => ?_
    have hle := @length_code_le _ vs code v hv
    obtain ⟨ud, hread, hresult, -⟩ := (hvs v hv).2.reads (by omega) none
    have hvalue := @decodeValue_struct sp numbers level (self.withArray f es)
      { f.args with index := (i : ℤ), value := code v } st ud htype hkey hread
    rw [hresult] at hvalue
    exact hvalue.trans (putValue_element hi _)
  small := trivial
  present := Nat.succ_ne_zero _
  same := hlists.same hplain hdense (fun v hv => (hvs v hv).2.same) _ _
  shape := fun _ => ⟨_, rfl⟩

/-- The key of an entry. -/
def keyOf (e : Value × Value) : Atom :=
  match e.1 with
  | .atom k => k
  | .table _ _ => .nil

theorem fieldCode_keyed
    {key : ℕ} (harray : f.array = true) (htype : f.type = .struct st)
    (hkey : f.key = some key) (hplain : Plain es)
    (hes : ∀ k, Value.rawget es k ≠ .atom .nil →
      StructCode sp numbers level (sp.type st) (Value.rawget es k)
        (code (Value.rawget es k)) (dec (Value.rawget es k)) ∧
        ∃ g ∈ (sp.type st).f, g.tag = key ∧
          getfield (Value.rawget es k) g.name = .ok (.atom k)) :
    FieldCode sp numbers (level + 1) f (.table border es)
      (.data (es.flatMap (objectCode ∘ fun e => code e.2))) (.table 0
        (build [] (pairs (fun _ e => (keyOf e, .table 0 (dec e.2))) 1 es))) := by
  have hentry : ∀ e ∈ es, (keyOf e).key = some (keyOf e) ∧
      Value.rawget es (keyOf e) = e.2 := by
    intro e he
    obtain ⟨k, hk, hkeyed⟩ := hplain.key e he
    have heq : keyOf e = k := by rw [keyOf, hk]
    rw [heq]
    refine ⟨hkeyed, hplain.rawget_of_mem ?_⟩
    rw [← hk]
    exact he
  have hcode : ∀ e ∈ es,
      StructCode sp numbers level (sp.type st) e.2 (code e.2) (dec e.2) ∧
        ∃ g ∈ (sp.type st).f, g.tag = key ∧
          getfield e.2 g.name = .ok (.atom (keyOf e)) := by
    intro e he
    have hvalue := (hentry e he).2
    have hcode := hes (keyOf e) (by rw [hvalue]; exact hplain.value e he)
    rw [hvalue] at hcode
    exact hcode
  constructor
  case writes =>
    intro self border' es' htbl hget htag
    refine ⟨_, fieldWrites_array harray ?_, opened_state self f.tag es es⟩
    have hsome : f.args.mainindex.isSome := by
      rw [show f.args.mainindex = some key from hkey]
      rfl
    have hanswer : AnswersFor sp numbers level f.args (fun e => e.2)
        (fun e => structAnswer sp numbers level st e.2) es := fun e he =>
      ⟨hplain.value e he, fun i value self => encodeValue_struct htype e.2⟩
    have hfeeds := feeds_first htbl htag hget (feeds_next Nat.one_pos hsome
      hanswer rfl)
    rw [encodeElements_object (struct_type htype)]
    refine writes_objects (fun e he => ?_) hfeeds
    obtain ⟨ud, hwrites⟩ := (hcode e he).1.writes
    exact answers_struct hwrites
  case reads =>
    intro hlength self htag
    rw [Cell.code, length_objectCode] at hlength
    rw [after_array harray]
    refine fieldReads_objects harray (struct_type htype) htag (by omega)
      fun e he i es' hi => ?_
    have hle := @length_code_le _ es (fun e => code e.2) e he
    obtain ⟨hstruct, g, hg, htagged, hfield⟩ := hcode e he
    obtain ⟨ud, hread, hresult, hmain⟩ := hstruct.reads
      (Nat.lt_of_le_of_lt hle (by omega)) (some key)
    have hne : keyOf e ≠ .nil := by
      intro hnil
      have hk := (hentry e he).1
      rw [hnil] at hk
      cases hk
    have hvalue := @decodeValue_keyed sp numbers level (self.withArray f es')
      { f.args with index := (i : ℤ), value := code e.2 } st key ud htype hkey
      hread
    rw [hmain g hg (congrArg some htagged.symm) (keyOf e) hne hfield,
      hresult] at hvalue
    exact hvalue.trans (putKeyed_element (hentry e he).1 _)
  case small => exact trivial
  case present => exact Nat.succ_ne_zero _
  case same =>
    refine hplain.same_build ?_ ?_ _ _
    · intro p hp
      obtain ⟨j, e, he, rfl⟩ := mem_pairs.1 hp
      have he := List.mem_of_getElem? he
      dsimp only
      rw [(hentry e he).2]
      exact ⟨hplain.value e he, (hcode e he).1.same⟩
    · intro k hk
      obtain ⟨j, hj⟩ := List.getElem?_of_mem (mem_of_rawget hk)
      exact ⟨_, mem_pairs.2 ⟨j, _, hj, rfl⟩⟩
  case shape => exact fun _ => ⟨_, rfl⟩

end Arrays

/-! ## The code of a struct -/

section Structs

variable {sp : Sproto} {numbers : Numbers} {level : ℕ}

/-- A value that fits a field has a code. -/
theorem exists_fieldCode
    {f : Field} {v : Value}
    (hsub : ∀ st v, Fits sp level (sp.type st) v →
      ∃ bs es, StructCode sp numbers level (sp.type st) v bs es)
    (hv : v ≠ .atom .nil) (h : FitsField sp (Fits sp level) f v) :
    ∃ cell v', FieldCode sp numbers (level + 1) f v cell v' := by
  have hchoice : ∀ st v, ∃ p : List UInt8 × Entries,
      Fits sp level (sp.type st) v →
        StructCode sp numbers level (sp.type st) v p.1 p.2 := by
    intro st v
    by_cases hfits : Fits sp level (sp.type st) v
    · obtain ⟨bs, es, hcode⟩ := hsub st v hfits
      exact ⟨(bs, es), fun _ => hcode⟩
    · exact ⟨([], []), fun h => absurd h hfits⟩
  choose p hp using hchoice
  obtain ⟨hextra, h⟩ := h
  split at h
  · rename_i harray hkey
    unfold FitsValue at h
    split at h
    · rename_i htype
      obtain ⟨x, rfl⟩ := h
      exact ⟨_, _, fieldCode_integer harray htype (hextra htype) x⟩
    · rename_i htype
      obtain ⟨b, rfl⟩ := h
      exact ⟨_, _, fieldCode_boolean harray htype b⟩
    · rename_i htype
      obtain ⟨str, rfl⟩ := h
      exact ⟨_, _, fieldCode_string harray htype str⟩
    · rename_i st htype
      exact ⟨_, _, fieldCode_struct harray htype hkey hv (hp st v h)⟩
  · rename_i harray hkey
    obtain ⟨border, es, n, rfl, hplain, hdense, hvalue⟩ := h
    have hvalue : ∀ i, 0 < i → i ≤ n →
        FitsValue sp (Fits sp level) f (Value.rawgeti es i) := fun i hi hle =>
      hvalue _ (hdense.rawgeti_ne_nil hi hle)
    unfold FitsValue at hvalue
    split at hvalue
    · rename_i htype
      obtain ⟨xs, hlists⟩ := exists_lists hvalue
      exact ⟨_, _, fieldCode_integers harray htype (hextra htype) hkey hplain
        hdense hlists⟩
    · rename_i htype
      obtain ⟨bs, hlists⟩ := exists_lists hvalue
      exact ⟨_, _, fieldCode_booleans harray htype hkey hplain hdense hlists⟩
    · rename_i htype
      obtain ⟨strs, hlists⟩ := exists_lists hvalue
      exact ⟨_, _, fieldCode_strings harray htype hkey hplain hdense hlists⟩
    · rename_i st htype
      obtain ⟨vs, hlists⟩ := @exists_lists _ es n id fun i _ _ =>
        ⟨Value.rawgeti es i, rfl⟩
      refine ⟨_, _, @fieldCode_structs sp numbers level f border n es st
        (fun v => (p st v).1) (fun v => (p st v).2) vs harray htype hkey hplain
        hdense hlists fun v hmem => ?_⟩
      obtain ⟨j, hj⟩ := List.getElem?_of_mem hmem
      have hlt := (List.getElem?_eq_some_iff.1 hj).1
      have hget : Value.rawgeti es (j + 1) = v := hlists.2 j v hj
      have hle : j + 1 ≤ n := by rw [← hlists.1]; exact hlt
      rw [← hget]
      exact ⟨hdense.rawgeti_ne_nil (Nat.succ_pos j) hle,
        hp st _ (hvalue (j + 1) (Nat.succ_pos j) hle)⟩
  · rename_i key harray hkey
    obtain ⟨st, htype, border, es, rfl, hplain, helement⟩ := h
    exact ⟨_, _, @fieldCode_keyed sp numbers level f border es st
      (fun v => (p st v).1) (fun v => (p st v).2) key harray htype hkey hplain
      fun k hk => ⟨hp st _ (helement k hk).1, (helement k hk).2⟩⟩
  · exact h.elim

/-- The cell of a field, which is empty if the table has no value for it. -/
def Coded (sp : Sproto) (numbers : Numbers) (level : ℕ) (es : Entries)
    (cell : Field → Cell) (dec : Field → Value) (f : Field) : Prop :=
  (Value.rawget es (.string f.name) = .atom .nil ∧ cell f = .absent) ∨
    Value.rawget es (.string f.name) ≠ .atom .nil ∧
      FieldCode sp numbers level f (Value.rawget es (.string f.name)) (cell f)
        (dec f)

variable {border : ℕ} {es : Entries} {cell : Field → Cell}
  {dec : Field → Value} {fs : List Field}

/-- A field without a value is not written. -/
theorem exists_fieldWrites_absent
    {f : Field} {self : EncodeUd} (htbl : self.tbl = .table border es)
    (htag : self.arrayTag ≠ some f.tag)
    (hnil : Value.rawget es (.string f.name) = .atom .nil) :
    ∃ self', FieldWrites (encode sp numbers (level + 1)) f .absent self
        self' ∧ self'.tbl = self.tbl ∧
      (self'.arrayTag = self.arrayTag ∨ self'.arrayTag = some f.tag) := by
  cases harray : f.array with
  | false =>
      refine ⟨self, fieldWrites_nil harray fun value => encode_nil ?_, rfl,
        .inl rfl⟩
      rw [← hnil]
      exact fetch_field rfl htbl
  | true =>
      refine ⟨{ self with arrayTag := some f.tag, array := [] },
        fieldWrites_noarray harray fun value => encode_noarray ?_, rfl,
        .inr rfl⟩
      exact fetch_noarray (Int.natCast_pos.2 Nat.one_pos) htbl htag hnil

/-- The callback is called for every field, so there has to be a level
left. -/
theorem exists_fieldsWrite
    (hlevel : fs ≠ [] → level ≠ 0)
    (hpairwise : fs.Pairwise fun f g => f.tag < g.tag)
    (hfs : ∀ f ∈ fs, Coded sp numbers level es cell dec f)
    {self : EncodeUd} (htbl : self.tbl = .table border es)
    (htag : ∀ f ∈ fs, self.arrayTag ≠ some f.tag) :
    ∃ self', FieldsWrite (encode sp numbers level)
      (fs.map fun f => (f, cell f)) self self' := by
  induction fs generalizing self with
  | nil => exact ⟨self, rfl⟩
  | cons f fs ih =>
      obtain ⟨hhead, htail⟩ := List.pairwise_cons.1 hpairwise
      have hpos := hlevel (List.cons_ne_nil f fs)
      obtain ⟨next, hwrites, htbl', htag'⟩ : ∃ next,
          FieldWrites (encode sp numbers level) f (cell f) self next ∧
          next.tbl = self.tbl ∧ (next.arrayTag = self.arrayTag ∨
            next.arrayTag = some f.tag) := by
        have hf := htag f List.mem_cons_self
        rcases hfs f List.mem_cons_self with ⟨hnil, habsent⟩ | ⟨-, hcode⟩
        · obtain ⟨l, rfl⟩ := Nat.exists_eq_succ_of_ne_zero hpos
          rw [habsent]
          exact exists_fieldWrites_absent htbl hf hnil
        · exact hcode.writes self border es htbl rfl hf
      obtain ⟨self', hrest⟩ := @ih (fun _ => hpos) htail
        (fun g hg => hfs g (List.mem_cons_of_mem _ hg)) next (htbl'.trans htbl)
        (by
          intro g hg heq
          rcases htag' with hold | hnew
          · exact htag g (List.mem_cons_of_mem _ hg) (hold.symm.trans heq)
          · have hlt := hhead g hg
            have := Option.some.inj (hnew.symm.trans heq)
            omega)
      exact ⟨self', next, hwrites, hrest⟩

/-- The values of the fields that are present. -/
def Present (es : Entries) (dec : Field → Value) (fs : List Field)
    (ps : List (Atom × Value)) : Prop :=
  ∀ p, p ∈ ps ↔ ∃ f ∈ fs, Value.rawget es (.string f.name) ≠ .atom .nil ∧
    p = (.string f.name, dec f)

/-- The value of the main index is kept. -/
def KeyRead (es : Entries) (dec : Field → Value) (fs : List Field)
    (self self' : DecodeUd) : Prop :=
  ((∀ g ∈ fs, self.mainindexTag ≠ some g.tag) → self'.key = self.key) ∧
    ∀ g ∈ fs, self.mainindexTag = some g.tag → g.array = false →
      Value.rawget es (.string g.name) ≠ .atom .nil → self'.key = dec g

theorem after_state (self : DecodeUd) (f : Field) (v : Value) :
    (self.after f v).mainindexTag = self.mainindexTag ∧
      (self.after f v).result =
        Value.setKey self.result (.string f.name) v ∧
      ((self.after f v).arrayTag = self.arrayTag ∨
        (self.after f v).arrayTag = some f.tag) := by
  unfold DecodeUd.after
  split
  · exact ⟨rfl, rfl, .inr rfl⟩
  · exact ⟨rfl, rfl, .inl rfl⟩

theorem KeyRead.skip
    {f : Field} {self self' : DecodeUd} (h : KeyRead es dec fs self self')
    (hnil : Value.rawget es (.string f.name) = .atom .nil) :
    KeyRead es dec (f :: fs) self self' := by
  refine ⟨fun hne => h.1 fun g hg => hne g (List.mem_cons_of_mem _ hg), ?_⟩
  intro g hg hindex harray hvalue
  rcases List.mem_cons.1 hg with rfl | hg
  · exact absurd hnil hvalue
  · exact h.2 g hg hindex harray hvalue

theorem KeyRead.cons
    {f : Field} {self self' : DecodeUd} (hhead : ∀ g ∈ fs, f.tag < g.tag)
    (h : KeyRead es dec fs (self.after f (dec f)) self') :
    KeyRead es dec (f :: fs) self self' := by
  unfold KeyRead at h ⊢
  rw [(after_state self f (dec f)).1] at h
  refine ⟨fun hne => ?_, ?_⟩
  · rw [h.1 fun g hg => hne g (List.mem_cons_of_mem _ hg)]
    unfold DecodeUd.after
    split
    · rfl
    · exact if_neg (hne f List.mem_cons_self)
  · intro g hg hindex harray hvalue
    rcases List.mem_cons.1 hg with rfl | hg
    · rw [h.1 fun g' hg' heq => ?_]
      · rw [after_value harray]
        exact if_pos hindex
      · have hlt := hhead g' hg'
        have := Option.some.inj (hindex.symm.trans heq)
        omega
    · exact h.2 g hg hindex harray hvalue

/-- The fields are read one after the other, and their values are set in the
result. -/
theorem exists_fieldsRead
    (hpairwise : fs.Pairwise fun f g => f.tag < g.tag)
    (hfs : ∀ f ∈ fs, Coded sp numbers level es cell dec f) :
    ∃ ps, Present es dec fs ps ∧
      ((cellsCode (fs.map fun f => (f, cell f))).length < 2 ^ 32 →
        ∀ self : DecodeUd, (∀ f ∈ fs, self.arrayTag ≠ some f.tag) →
          ∃ self', FieldsRead (decode sp numbers level)
              (fs.map fun f => (f, cell f)) self self' ∧
            self'.result = build self.result ps ∧
            KeyRead es dec fs self self') := by
  induction fs with
  | nil =>
      refine ⟨[], fun p => ⟨fun h => ?_, ?_⟩, fun _ self _ => ⟨self, rfl, rfl,
        fun _ => rfl, ?_⟩⟩
      · cases h
      · rintro ⟨f, hf, -⟩
        cases hf
      · intro g hg
        cases hg
  | cons f fs ih =>
      obtain ⟨hhead, htail⟩ := List.pairwise_cons.1 hpairwise
      obtain ⟨ps, hps, hread⟩ := ih htail fun g hg =>
        hfs g (List.mem_cons_of_mem _ hg)
      rw [List.map_cons, cellsCode_cons, List.length_append]
      rcases hfs f List.mem_cons_self with ⟨hnil, habsent⟩ | ⟨hne, hcode⟩
      · refine ⟨ps, fun p => ?_, fun hsize self htag => ?_⟩
        · rw [hps p]
          constructor
          · rintro ⟨g, hg, hp⟩
            exact ⟨g, List.mem_cons_of_mem _ hg, hp⟩
          · rintro ⟨g, hg, hp⟩
            rcases List.mem_cons.1 hg with rfl | hg
            · exact absurd hnil hp.1
            · exact ⟨g, hg, hp⟩
        · obtain ⟨self', hfields, hresult, hkey⟩ := hread (by omega) self
            fun g hg => htag g (List.mem_cons_of_mem _ hg)
          refine ⟨self', .inl ⟨?_, hfields⟩, hresult, hkey.skip hnil⟩
          rw [habsent]
          rfl
      · refine ⟨(.string f.name, dec f) :: ps, fun p => ?_,
          fun hsize self htag => ?_⟩
        · rw [List.mem_cons, hps p]
          constructor
          · rintro (rfl | ⟨g, hg, hp⟩)
            · exact ⟨f, List.mem_cons_self, hne, rfl⟩
            · exact ⟨g, List.mem_cons_of_mem _ hg, hp⟩
          · rintro ⟨g, hg, hp⟩
            rcases List.mem_cons.1 hg with rfl | hg
            · exact .inl hp.2
            · exact .inr ⟨g, hg, hp⟩
        · obtain ⟨-, hset, hopen⟩ := after_state self f (dec f)
          obtain ⟨self', hfields, hresult, hkey⟩ := hread (by omega)
            (self.after f (dec f)) (by
              intro g hg heq
              rcases hopen with hold | hnew
              · exact htag g (List.mem_cons_of_mem _ hg) (hold.symm.trans heq)
              · have hlt := hhead g hg
                have := Option.some.inj (hnew.symm.trans heq)
                omega)
          rw [hset] at hresult
          have hreads := hcode.reads (by omega) self
            (htag f List.mem_cons_self)
          exact ⟨self', .inr ⟨hcode.present, _, hreads, hfields⟩, hresult,
            hkey.cons hhead⟩

/-- The code of a struct whose fields have one. -/
theorem exists_structCode_of_coded
    {st : SprotoType} (hlevel : st.f ≠ [] → level ≠ 0)
    (hloaded : st.Loaded) (hplain : Plain es)
    (hkeys : ∀ k, Value.rawget es k ≠ .atom .nil →
      ∃ f ∈ st.f, k = .string f.name)
    (hfs : ∀ f ∈ st.f, Coded sp numbers level es cell dec f) :
    ∃ bs es', StructCode sp numbers level st (.table border es) bs es' := by
  have hfields : (st.f.map fun f => (f, cell f)).map (·.1) = st.f := by
    rw [List.map_map]
    exact List.map_id st.f
  obtain ⟨ud, hwrites⟩ := @exists_fieldsWrite _ _ _ _ _ _ _ _ hlevel
    hloaded.ascending hfs ⟨.table border es, none, [], []⟩ rfl
    fun f _ h => (by cases h)
  obtain ⟨ps, hps, hread⟩ := exists_fieldsRead hloaded.ascending hfs
  have hsmall : ∀ p ∈ st.f.map fun f => (f, cell f), p.2.Small := by
    intro p hp
    obtain ⟨f, hf, rfl⟩ := List.mem_map.1 hp
    rcases hfs f hf with ⟨-, habsent⟩ | ⟨-, hcode⟩
    · dsimp only
      rw [habsent]
      exact trivial
    · exact hcode.small
  refine ⟨structCode (st.f.map fun f => (f, cell f)), build [] ps,
    ⟨ud, writes_struct hloaded hfields hwrites⟩, ?_, ?_⟩
  · intro hsize mainindex
    have hcells : (cellsCode (st.f.map fun f => (f, cell f))).length <
        2 ^ 32 := by
      rw [structCode, List.length_append, List.length_append] at hsize
      omega
    obtain ⟨self, hfieldsRead, hresult, hkey⟩ := hread hcells
      ⟨none, [], mainindex, .atom .nil⟩ fun f _ h => (by cases h)
    refine ⟨self, reads_struct hloaded hfields hsmall hfieldsRead hsize,
      hresult, ?_⟩
    intro g hg hindex a ha hfield
    have hget : Value.rawget es (.string g.name) = .atom a :=
      Except.ok.inj hfield
    have hne : Value.rawget es (.string g.name) ≠ .atom .nil := by
      rw [hget]
      exact atom_ne_nil ha
    rcases hfs g hg with ⟨hnil, -⟩ | ⟨-, hcode⟩
    · exact absurd hnil hne
    · have hdec : dec g = .atom a := by
        have hsame := hcode.same
        rw [hget] at hsame
        exact hsame.eq_atom
      have harray : g.array = false := by
        cases harray : g.array with
        | false => rfl
        | true =>
            obtain ⟨es', hes'⟩ := hcode.shape harray
            cases hdec.symm.trans hes'
      rw [← hdec]
      exact hkey.2 g hg hindex harray hne
  · refine hplain.same_build ?_ ?_ _ _
    · intro p hp
      obtain ⟨f, hf, hne, rfl⟩ := (hps p).1 hp
      rcases hfs f hf with ⟨hnil, -⟩ | ⟨-, hcode⟩
      · exact absurd hnil hne
      · exact ⟨hne, hcode.same⟩
    · intro k hk
      obtain ⟨f, hf, rfl⟩ := hkeys k hk
      exact ⟨dec f, (hps _).2 ⟨f, hf, hk, rfl⟩⟩

/-- Every table that fits a type has a code. -/
theorem exists_structCode
    (hloaded : ∀ st ∈ sp.types, st.Loaded) {st : SprotoType} {v : Value}
    (hst : st.Loaded) (h : Fits sp level st v) :
    ∃ bs es, StructCode sp numbers level st v bs es := by
  induction level generalizing st v with
  | zero =>
      obtain ⟨hnil, border, rfl⟩ := h
      refine @exists_structCode_of_coded _ _ _ _ _ (fun _ => .absent)
        (fun _ => .atom .nil) _ (fun h => absurd hnil h) hst plain_nil
        (fun k hk => absurd (rawget_nil k) hk) fun f hf => ?_
      rw [hnil] at hf
      cases hf
  | succ level ih =>
      obtain ⟨border, es, rfl, hplain, hkeys, hfields⟩ := h
      have hchoice : ∀ f : Field, ∃ p : Cell × Value, f ∈ st.f →
          (Value.rawget es (.string f.name) = .atom .nil ∧ p.1 = .absent) ∨
            Value.rawget es (.string f.name) ≠ .atom .nil ∧
              FieldCode sp numbers (level + 1) f
                (Value.rawget es (.string f.name)) p.1 p.2 := by
        intro f
        by_cases hnil : Value.rawget es (.string f.name) = .atom .nil
        · exact ⟨(.absent, .atom .nil), fun _ => .inl ⟨hnil, rfl⟩⟩
        · by_cases hf : f ∈ st.f
          · obtain ⟨cell, v', hcode⟩ := exists_fieldCode
              (fun i v => ih (loaded_type hloaded i)) hnil (hfields f hf hnil)
            exact ⟨(cell, v'), fun _ => .inr ⟨hnil, hcode⟩⟩
          · exact ⟨(.absent, .atom .nil), fun h => absurd h hf⟩
      choose p hp using hchoice
      exact @exists_structCode_of_coded _ _ _ _ _ (fun f => (p f).1)
        (fun f => (p f).2) _ (fun _ => Nat.succ_ne_zero level) hst hplain
        hkeys hp

end Structs

/-! ## Buffers -/

section Buffers

variable {sp : Sproto} {numbers : Numbers} {st : SprotoType} {v : Value}
  {bs : List UInt8} {es : Entries}

/-- Any buffer that is large enough holds the same bytes. -/
theorem StructCode.encodeTo
    (h : StructCode sp numbers encodeDeeplevel st v bs es) :
    ∃ need, ∀ buffer,
      encodeTo sp numbers st v buffer = .ok none ∧ buffer.length < need ∨
        encodeTo sp numbers st v buffer = .ok (some bs) ∧
          bs.length ≤ buffer.length := by
  obtain ⟨ud, need, hneed⟩ := h.writes
  refine ⟨need, fun buffer => ?_⟩
  unfold Sproto.encodeTo
  rcases hneed buffer with ⟨hnone, hlt⟩ | ⟨header, hsome, hlength, rest, rfl⟩
  · dsimp only at hnone
    rw [hnone]
    exact .inl ⟨rfl, hlt⟩
  · dsimp only at hsome
    rw [hsome]
    refine .inr ⟨?_, ?_⟩
    · dsimp only [Except.map, Option.map]
      rw [List.take_left]
    · rw [← hlength, List.length_append]
      exact Nat.le_add_right _ _

theorem StructCode.ldecode
    (h : StructCode sp numbers encodeDeeplevel st v bs es)
    (hlength : bs.length < 2 ^ 31) :
    ldecode sp numbers st bs = .ok (.table 0 es, bs.length) := by
  obtain ⟨ud, hread, hresult, -⟩ := h.reads (by omega) none
  unfold Sproto.ldecode
  rw [hread, ← hresult]
  rfl

/-- The loop ends with the bytes, or with a buffer that cannot be doubled. -/
theorem encodeRounds_spec
    {need rounds : ℕ} {buffer : List UInt8}
    (hneed : ∀ buffer, encodeTo sp numbers st v buffer = .ok none ∧
        buffer.length < need ∨
      encodeTo sp numbers st v buffer = .ok (some bs) ∧
        bs.length ≤ buffer.length)
    (hpos : 0 < buffer.length) (hmax : buffer.length ≤ encodeMaxsize)
    (hrounds : encodeMaxsize < rounds + buffer.length) :
    encodeRounds sp numbers st v rounds buffer = .error .tooLarge ∧
        encodeMaxsize < 2 * need ∨
      encodeRounds sp numbers st v rounds buffer = .ok bs ∧
        bs.length ≤ encodeMaxsize := by
  induction rounds generalizing buffer with
  | zero => omega
  | succ rounds ih =>
      rw [encodeRounds]
      rcases hneed buffer with ⟨hnone, hlt⟩ | ⟨hsome, hle⟩
      · rw [hnone]
        dsimp only [Except.bind]
        split
        · exact .inl ⟨rfl, by omega⟩
        · rename_i hsize
          refine ih ?_ ?_ ?_
          all_goals
            rw [List.length_replicate]
            omega
      · rw [hsome]
        exact .inr ⟨rfl, by omega⟩

end Buffers

/-- A table that fits a loaded type is encoded to the same bytes in every
buffer that is large enough for them, and `ldecode` makes the same table of
them.  The loop of `lencode` ends with these bytes, or with the error that the
table is too large. -/
theorem decode_encode
    {bundle : List UInt8} {sp : Sproto} (hload : sprotoCreate bundle = .ok sp)
    {st : SprotoType} (hst : st ∈ sp.types) (numbers : Numbers) {v : Value}
    (hfits : Fits sp encodeDeeplevel st v) :
    ∃ bs v' need, Same v v' ∧
      (∀ buffer,
        encodeTo sp numbers st v buffer = .ok none ∧ buffer.length < need ∨
          encodeTo sp numbers st v buffer = .ok (some bs) ∧
            bs.length ≤ buffer.length) ∧
      (bs.length < 2 ^ 31 → ldecode sp numbers st bs = .ok (v', bs.length)) ∧
      ∀ buffer : List UInt8, 0 < buffer.length →
        buffer.length ≤ encodeMaxsize →
        lencode sp numbers st v buffer = .error .tooLarge ∧
            encodeMaxsize < 2 * need ∨
          lencode sp numbers st v buffer = .ok bs ∧
            ldecode sp numbers st bs = .ok (v', bs.length) := by
  have hloaded := sprotoCreate_loaded hload
  obtain ⟨bs, es, hcode⟩ := exists_structCode hloaded (hloaded st hst) hfits
  obtain ⟨need, hneed⟩ := hcode.encodeTo
  refine ⟨bs, .table 0 es, need, hcode.same, hneed, hcode.ldecode, ?_⟩
  intro buffer hpos hmax
  rcases encodeRounds_spec hneed hpos hmax (Nat.lt_of_lt_of_le
    (Nat.lt_succ_self _) (Nat.le_add_right _ _)) with htoo | ⟨hok, hle⟩
  · exact .inl htoo
  · refine .inr ⟨hok, hcode.ldecode (Nat.lt_of_le_of_lt hle ?_)⟩
    decide

/-! ## A bag of items -/

/-- The types `I { id 0 : integer, n 3 : string }` and
`B { m 1 : *I(id), c 4 : *integer }`. -/
def bagBundle : List UInt8 :=
  [1, 0, 0, 0, 121, 0, 0, 0, 54, 0, 0, 0, 2, 0, 0, 0, 0, 0, 1, 0, 0, 0, 73,
    39, 0, 0, 0, 16, 0, 0, 0, 4, 0, 0, 0, 2, 0, 1, 0, 2, 0, 2, 0, 0, 0, 105,
    100, 15, 0, 0, 0, 4, 0, 0, 0, 6, 0, 1, 0, 8, 0, 1, 0, 0, 0, 110, 59, 0, 0,
    0, 2, 0, 0, 0, 0, 0, 1, 0, 0, 0, 66, 44, 0, 0, 0, 19, 0, 0, 0, 6, 0, 0, 0,
    1, 0, 2, 0, 4, 0, 4, 0, 2, 0, 1, 0, 0, 0, 109, 17, 0, 0, 0, 5, 0, 0, 0, 2,
    0, 1, 0, 10, 0, 4, 0, 1, 0, 0, 0, 99]

def itemType : SprotoType :=
  ⟨[73], -1, 3, [⟨0, .integer, false, [105, 100], none, 0⟩,
    ⟨3, .string, false, [110], none, 0⟩]⟩

def bagType : SprotoType :=
  ⟨[66], -1, 4, [⟨1, .struct 0, true, [109], some 0, 0⟩,
    ⟨4, .integer, true, [99], none, 0⟩]⟩

def bagSproto : Sproto := ⟨[itemType, bagType], []⟩

def noNumbers : Numbers :=
  ⟨fun _ => none, fun _ => [], fun _ _ => 0, fun _ _ => 0⟩

def itemTable : Value :=
  .table 0 [(.atom (.string [105, 100]), .atom (.integer 70000)),
    (.atom (.string [110]), .atom (.string []))]

def bagEntries : Entries :=
  [(.atom (.string [109]), .table 0 [(.atom (.integer 70000), itemTable)]),
    (.atom (.string [99]), .table 2 [(.atom (.integer 1),
      .atom (.integer (-1))), (.atom (.integer 2),
        .atom (.integer 0x10000000000))])]

theorem plain_of_pairs
    {ps : List (Atom × Value)} {es : Entries} (hes : build [] ps = es)
    (hps : ∀ p ∈ ps, p.1.key = some p.1 ∧ p.2 ≠ .atom .nil) : Plain es :=
  hes ▸ plain_build plain_nil hps

theorem fits_item (level : ℕ) :
    Fits bagSproto (level + 1) itemType itemTable := by
  refine ⟨0, _, rfl, ?_, ?_, ?_⟩
  · refine @plain_of_pairs [(.string [105, 100], .atom (.integer 70000)),
      (.string [110], .atom (.string []))] _ rfl ?_
    simp only [List.forall_mem_cons, List.not_mem_nil]
    exact ⟨⟨rfl, fun h => (by cases h)⟩, ⟨rfl, fun h => (by cases h)⟩,
      fun _ h => h.elim⟩
  · intro k hk
    rcases List.mem_cons.1 (mem_of_rawget hk) with h | h
    · exact ⟨_, .head _, Value.atom.inj (Prod.ext_iff.1 h).1⟩
    · cases List.mem_singleton.1 h
      exact ⟨_, .tail _ (.head _), rfl⟩
  · intro f hf _
    rcases List.mem_cons.1 hf with rfl | hf
    · exact ⟨fun _ => rfl, 70000, rfl⟩
    · cases List.mem_singleton.1 hf
      exact ⟨fun _ => rfl, [], rfl⟩

theorem fitsKeyed_items :
    FitsKeyed bagSproto (Fits bagSproto (encodeDeeplevel - 1)) 0 0
      (.table 0 [(.atom (.integer 70000), itemTable)]) := by
  refine ⟨0, _, rfl, ?_, ?_⟩
  · refine @plain_of_pairs [(.integer 70000, itemTable)] _ rfl ?_
    simp only [List.forall_mem_cons, List.not_mem_nil]
    exact ⟨⟨rfl, fun h => (by cases h)⟩, fun _ h => h.elim⟩
  · intro k hk
    have hkey : k = .integer 70000 := Value.atom.inj
      (Prod.ext_iff.1 (List.mem_singleton.1 (mem_of_rawget hk))).1
    subst hkey
    exact ⟨fits_item 62, _, .head _, rfl, rfl⟩

theorem fitsArray_counts :
    FitsArray bagSproto (Fits bagSproto (encodeDeeplevel - 1))
      ⟨4, .integer, true, [99], none, 0⟩
      (.table 2 [(.atom (.integer 1), .atom (.integer (-1))),
        (.atom (.integer 2), .atom (.integer 0x10000000000))]) := by
  refine ⟨2, _, 2, rfl, ?_, ⟨by decide, ?_⟩, ?_⟩
  · refine @plain_of_pairs [(.integer 1, .atom (.integer (-1))),
      (.integer 2, .atom (.integer 0x10000000000))] _ rfl ?_
    simp only [List.forall_mem_cons, List.not_mem_nil]
    exact ⟨⟨rfl, fun h => (by cases h)⟩, ⟨rfl, fun h => (by cases h)⟩,
      fun _ h => h.elim⟩
  · intro k
    constructor
    · intro hk
      rcases List.mem_cons.1 (mem_of_rawget hk) with h | h
      · exact ⟨1, by decide, by decide, Value.atom.inj (Prod.ext_iff.1 h).1⟩
      · exact ⟨2, by decide, by decide,
          Value.atom.inj (Prod.ext_iff.1 (List.mem_singleton.1 h)).1⟩
    · rintro ⟨i, hpos, hle, rfl⟩
      rcases (by omega : i = 1 ∨ i = 2) with rfl | rfl
      · exact fun h => (by cases h)
      · exact fun h => (by cases h)
  · intro k hk
    rcases List.mem_cons.1 (mem_of_rawget hk) with h | h
    · exact ⟨_, (Prod.ext_iff.1 h).2⟩
    · exact ⟨_, (Prod.ext_iff.1 (List.mem_singleton.1 h)).2⟩

theorem fits_bag : Fits bagSproto encodeDeeplevel bagType
    (.table 0 bagEntries) := by
  refine ⟨0, _, rfl, ?_, ?_, ?_⟩
  · refine @plain_of_pairs
      [(.string [109], .table 0 [(.atom (.integer 70000), itemTable)]),
        (.string [99], .table 2 [(.atom (.integer 1), .atom (.integer (-1))),
          (.atom (.integer 2), .atom (.integer 0x10000000000))])] _ rfl ?_
    simp only [List.forall_mem_cons, List.not_mem_nil]
    exact ⟨⟨rfl, fun h => (by cases h)⟩, ⟨rfl, fun h => (by cases h)⟩,
      fun _ h => h.elim⟩
  · intro k hk
    rcases List.mem_cons.1 (mem_of_rawget hk) with h | h
    · exact ⟨_, .head _, Value.atom.inj (Prod.ext_iff.1 h).1⟩
    · exact ⟨_, .tail _ (.head _),
        Value.atom.inj (Prod.ext_iff.1 (List.mem_singleton.1 h)).1⟩
  · intro f hf _
    rcases List.mem_cons.1 hf with rfl | hf
    · exact ⟨fun h => (by cases h), 0, rfl, fitsKeyed_items⟩
    · cases List.mem_singleton.1 hf
      exact ⟨fun _ => rfl, fitsArray_counts⟩

theorem decode_encode_bag :
    ∃ bs v', Same (.table 0 bagEntries) v' ∧
      lencode bagSproto noNumbers bagType (.table 0 bagEntries)
        (List.replicate encodeBuffersize 0) = .ok bs ∧
      ldecode bagSproto noNumbers bagType bs = .ok (v', bs.length) := by
  have hload : sprotoCreate bagBundle = .ok bagSproto := by decide +kernel
  obtain ⟨bs, v', need, hsame, -, -, hloop⟩ := decode_encode hload
    (List.mem_cons_of_mem _ List.mem_cons_self) noNumbers fits_bag
  rcases hloop (List.replicate encodeBuffersize 0)
    (by rw [List.length_replicate]; decide)
    (by rw [List.length_replicate]; decide) with ⟨htoo, -⟩ | ⟨hok, hread⟩
  · have hdecide : (lencode bagSproto noNumbers bagType (.table 0 bagEntries)
        (List.replicate encodeBuffersize 0)).isOk = true := by decide +kernel
    rw [htoo] at hdecide
    cases hdecide
  · exact ⟨bs, v', hsame, hok, hread⟩

end SkynetServer.Sproto
