import SkynetServer.Sproto.EncodeFields

/-!
# Decoding the fields of a table

What the callback `decode` makes of the cell of one field.
-/

namespace SkynetServer.Sproto

open LittleEndian Seri

/-- How `decode` decodes a struct. -/
def decodeStruct (sp : Sproto) (numbers : Numbers) (level st : ℕ)
    (value : List UInt8) (mainindex : Option ℕ) :
    Except Failure (Option (ℕ × DecodeUd)) :=
  sprotoDecode (decode sp numbers level) (sp.type st) value
    ⟨none, [], mainindex, .atom .nil⟩

/-- The state after a field that is no array. -/
def DecodeUd.withValue (self : DecodeUd) (f : Field) (v : Value) : DecodeUd :=
  { self with
    result := Value.setKey self.result (.string f.name) v
    key := if self.mainindexTag = some f.tag then v else self.key }

/-- The state with the array of a field open. -/
def DecodeUd.withArray (self : DecodeUd) (f : Field) (es : Entries) :
    DecodeUd :=
  { self with
    arrayTag := some f.tag
    result := Value.setKey self.result (.string f.name) (.table 0 es) }

section Callback

variable {sp : Sproto} {numbers : Numbers} {level : ℕ} {f : Field}
  {self : DecodeUd} {es : Entries} {value : List UInt8}

theorem table_ne_nil (border : ℕ) (es : Entries) :
    Value.table border es ≠ .atom .nil := by
  intro h
  cases h

theorem decode_field :
    decode sp numbers (level + 1) { f.args with value := value } self =
      decodeValue numbers (decodeStruct sp numbers level)
        { f.args with value := value } self :=
  rfl

theorem decode_empty (htag : self.arrayTag ≠ some f.tag) :
    decode sp numbers (level + 1) { f.args with index := -1, value := [] }
      self = .ok (0, self.withArray f []) := by
  have hempty : emptyArray { f.args with index := -1, value := [] } self =
      true :=
    decide_eq_true ⟨show (-1 : ℤ) < 0 by decide, htag⟩
  have hnew : newArray { f.args with index := -1, value := [] } self =
      self.withArray f [] :=
    if_pos ⟨show (-1 : ℤ) ≠ 0 by decide, htag⟩
  rw [decode, hempty, hnew]
  rfl

/-- The array is open. -/
theorem decode_element (i : ℤ) :
    decode sp numbers (level + 1)
      { f.args with index := i, value := value } (self.withArray f es) =
      decodeValue numbers (decodeStruct sp numbers level)
        { f.args with index := i, value := value } (self.withArray f es) := by
  have hempty : emptyArray { f.args with index := i, value := value }
      (self.withArray f es) = false :=
    decide_eq_false fun h => absurd rfl h.2
  have hnew : newArray { f.args with index := i, value := value }
      (self.withArray f es) = self.withArray f es :=
    if_neg fun h => absurd rfl h.2
  rw [decode, hempty, hnew]
  rfl

/-- The first element opens the array. -/
theorem decode_first {i : ℤ} (hi : 0 < i) (htag : self.arrayTag ≠ some f.tag) :
    decode sp numbers (level + 1)
      { f.args with index := i, value := value } self =
      decode sp numbers (level + 1)
        { f.args with index := i, value := value } (self.withArray f []) := by
  have hempty : emptyArray { f.args with index := i, value := value } self =
      false :=
    decide_eq_false fun h => absurd (show i < 0 from h.1) (by omega)
  have hnew : newArray { f.args with index := i, value := value } self =
      self.withArray f [] :=
    if_pos ⟨show i ≠ 0 by omega, htag⟩
  rw [decode_element, decode, hempty, hnew]
  rfl

theorem putValue_field (v : Value) :
    putValue { f.args with value := value } self v =
      .ok (0, self.withValue f v) :=
  rfl

variable {args : Arg}

/-- The open array is the value of the field in the result. -/
theorem updateArray_open
    {update : Entries → Except Failure Entries} {es' : Entries}
    (hname : args.tagname = f.name) (hupdate : update es = .ok es') :
    updateArray args (self.withArray f es) update =
      .ok (self.withArray f es') := by
  have hget : Value.rawget (self.withArray f es).result (.string f.name) =
      .table 0 es := by
    rw [DecodeUd.withArray, rawget_setKey (table_ne_nil 0 es), if_pos rfl]
  unfold updateArray
  rw [hname, hget]
  dsimp only
  rw [hupdate]
  dsimp only [Except.map, DecodeUd.withArray]
  rw [setKey_setKey (table_ne_nil 0 es) (table_ne_nil 0 es')]

theorem putValue_element {i : ℕ} (hi : 0 < i) (v : Value) :
    putValue { f.args with index := i, value := value }
      (self.withArray f es) v =
      .ok (0, self.withArray f
        (Value.setKey es (.integer (BitVec.ofNat 64 i)) v)) := by
  have hpos : (i : ℤ) > 0 := Int.natCast_pos.2 hi
  unfold putValue
  dsimp only
  rw [if_pos hpos]
  have hopen := @updateArray_open f self es
    { f.args with index := i, value := value }
    (fun es => .ok (Value.rawseti es i v)) _ rfl rfl
  exact congrArg (Except.map fun self => ((0 : ℤ), self)) hopen

theorem putKeyed_element
    {i : ℤ} {tag : ℕ} {a : Atom} (hkey : a.key = some a) (v : Value) :
    putKeyed { f.args with index := i, value := value }
      (self.withArray f es) tag (.atom a) v =
      .ok (0, self.withArray f (Value.setKey es a v)) := by
  have hset : Value.rawset es (.atom a) v = some (Value.setKey es a v) := by
    rw [Value.rawset, hkey]
    rfl
  unfold putKeyed
  split
  · rename_i heq
    cases heq
    cases hkey
  · exact congrArg (Except.map fun self => ((0 : ℤ), self))
      (updateArray_open rfl (by rw [hset]))

/-! ## Values -/

theorem decodeValue_integer
    {sub} (htype : args.type = .integer) (hextra : args.extra = 0)
    {x : BitVec 64} (hvalue : args.value = bytes 8 x.toNat) :
    decodeValue numbers sub args self =
      putValue args self (.atom (.integer x)) := by
  have htake : args.value.take 8 = bytes 8 x.toNat := by
    rw [hvalue]
    exact List.take_of_length_le (Nat.le_of_eq (length_bytes 8 _))
  unfold decodeValue
  rw [htype]
  dsimp only
  rw [if_neg (not_not_intro hextra), htake, ofNat_number]

theorem decodeValue_boolean
    {sub} (htype : args.type = .boolean) {b : Bool}
    (hvalue : args.value = bytes 8 b.toNat) :
    decodeValue numbers sub args self =
      putValue args self (.atom (.boolean b)) := by
  unfold decodeValue
  rw [htype, hvalue]
  cases b
  all_goals rfl

theorem decodeValue_string
    {sub} (htype : args.type = .string) :
    decodeValue numbers sub args self =
      putValue args self (.atom (.string args.value)) := by
  unfold decodeValue
  rw [htype]

theorem decodeValue_struct
    {st : ℕ} {ud : DecodeUd} (htype : args.type = .struct st)
    (hkey : args.mainindex = none)
    (hsub : decodeStruct sp numbers level st args.value none =
      .ok (some (args.value.length, ud))) :
    decodeValue numbers (decodeStruct sp numbers level) args self =
      putValue args self (.table 0 ud.result) := by
  unfold decodeValue
  rw [htype, hkey]
  dsimp only
  rw [hsub]
  dsimp only [Except.bind]
  rw [if_neg (not_not_intro rfl)]

theorem decodeValue_keyed
    {st tag : ℕ} {ud : DecodeUd} (htype : args.type = .struct st)
    (hkey : args.mainindex = some tag)
    (hsub : decodeStruct sp numbers level st args.value (some tag) =
      .ok (some (args.value.length, ud))) :
    decodeValue numbers (decodeStruct sp numbers level) args self =
      putKeyed args self tag ud.key (.table 0 ud.result) := by
  unfold decodeValue
  rw [htype, hkey]
  dsimp only
  rw [hsub]
  dsimp only [Except.bind]
  rw [if_neg (not_not_intro rfl)]

/-! ## Fields that are no arrays -/

variable {payload : List UInt8}

theorem todword_objectCode
    (h : payload.length < 2 ^ 32) (rest : List UInt8) :
    todword (objectCode payload ++ rest) = payload.length := by
  rw [objectCode, List.append_assoc]
  exact (todword_bytes _ _).trans (Nat.mod_eq_of_lt h)

theorem drop_objectCode (payload rest : List UInt8) :
    (objectCode payload ++ rest).drop sizeofLength = payload ++ rest := by
  rw [objectCode, List.append_assoc]
  exact List.drop_left' (length_bytes _ _)

theorem decode_integer
    {x : BitVec 64} (htype : f.type = .integer) (hextra : f.extra = 0) :
    decode sp numbers (level + 1)
      { f.args with value := bytes 8 x.toNat } self =
      .ok (0, self.withValue f (.atom (.integer x))) := by
  rw [decode_field, @decodeValue_integer numbers self
    { f.args with value := bytes 8 x.toNat } _ htype hextra x rfl,
    putValue_field]

theorem decode_boolean {b : Bool} (htype : f.type = .boolean) :
    decode sp numbers (level + 1)
      { f.args with value := bytes 8 b.toNat } self =
      .ok (0, self.withValue f (.atom (.boolean b))) := by
  rw [decode_field, @decodeValue_boolean numbers self
    { f.args with value := bytes 8 b.toNat } _ htype b rfl, putValue_field]

/-- The data of an integer. -/
theorem fieldReads_integerData
    {x : BitVec 64} (harray : f.array = false)
    (htype : f.type = .integer) (hextra : f.extra = 0)
    (hlength : payload.length = 4 ∨ payload.length = 8)
    (hat : ∀ rest, integerAt payload.length (payload ++ rest) = x.toNat) :
    FieldReads (decode sp numbers (level + 1)) f (.data payload) self
      (self.withValue f (.atom (.integer x))) := by
  intro rest
  have hargs : f.args.type = .integer := htype
  have hsize : payload.length = sizeofInt32 ∨ payload.length = sizeofInt64 :=
    hlength
  unfold decodeField
  rw [Cell.value, if_pos (Eq.refl 0), harray, if_neg Bool.false_ne_true]
  unfold decodeData
  rw [Cell.code, todword_objectCode (by omega), drop_objectCode, hargs]
  dsimp only
  rw [if_pos hsize, hat, ← hargs]
  exact congrArg (Except.map fun r => some r.2) (decode_integer htype hextra)

theorem fieldReads_integer
    {x : BitVec 64} (harray : f.array = false) (htype : f.type = .integer)
    (hextra : f.extra = 0) :
    FieldReads (decode sp numbers (level + 1)) f (integerCell x) self
      (self.withValue f (.atom (.integer x))) := by
  unfold integerCell
  split
  · rename_i hx
    split
    · rename_i hsmall
      intro rest
      have hvalue : (x.toNat % 2 ^ 32 + 1) * 2 / 2 - 1 = x.toNat := by
        rcases (narrow_iff x).1 hx with hlow | hhigh
        · omega
        · have := x.isLt
          omega
      unfold decodeField
      rw [Cell.value, if_neg (by omega), if_pos ⟨harray, .inl htype⟩, hvalue]
      exact congrArg (Except.map fun r => some r.2)
        (decode_integer htype hextra)
    · refine fieldReads_integerData harray htype hextra
        (.inl (length_bytes 4 _)) fun rest => ?_
      rw [length_bytes]
      exact integerAt_four hx rest
  · refine fieldReads_integerData harray htype hextra
      (.inr (length_bytes 8 _)) fun rest => ?_
    rw [length_bytes]
    exact integerAt_eight x rest

theorem fieldReads_boolean
    {b : Bool} (harray : f.array = false) (htype : f.type = .boolean) :
    FieldReads (decode sp numbers (level + 1)) f (.inline b.toNat) self
      (self.withValue f (.atom (.boolean b))) := by
  intro rest
  have hvalue : (b.toNat + 1) * 2 / 2 - 1 = b.toNat := by omega
  unfold decodeField
  rw [Cell.value, if_neg (by omega), if_pos ⟨harray, .inr htype⟩, hvalue]
  exact congrArg (Except.map fun r => some r.2) (decode_boolean htype)

/-- The data of a string or a struct. -/
theorem fieldReads_object
    {v : Value} (harray : f.array = false)
    (htype : f.type ≠ .integer ∧ f.type ≠ .boolean)
    (hlength : payload.length < 2 ^ 32)
    (hcb : decode sp numbers (level + 1) { f.args with value := payload }
      self = .ok (0, self.withValue f v)) :
    FieldReads (decode sp numbers (level + 1)) f (.data payload) self
      (self.withValue f v) := by
  intro rest
  unfold decodeField
  rw [Cell.value, if_pos (Eq.refl 0), harray, if_neg Bool.false_ne_true]
  unfold decodeData
  rw [Cell.code, todword_objectCode hlength, drop_objectCode]
  dsimp only
  rw [List.take_left]
  split
  · rename_i h
    exact absurd h htype.1
  · rename_i h
    exact absurd h htype.2
  · exact congrArg (Except.map fun r => if r.1 ≠ 0 then none else some r.2) hcb

end Callback

/-! ## Arrays -/

section Arrays

variable {α : Type*}

/-- The entries that the elements from index `i` on become. -/
def pairs (pair : ℕ → α → Atom × Value) : ℕ → List α → List (Atom × Value)
  | _, [] => []
  | i, x :: xs => pair i x :: pairs pair (i + 1) xs

variable {σ : Type*} {cb : Arg → σ → Except Failure (ℤ × σ)} {args : Arg}
  {opened : Entries → σ} {pair : ℕ → α → Atom × Value}
  {code : α → List UInt8} {xs : List α}

/-- The elements of a fixed width are put into the open array. -/
theorem decodeNumbers_spec
    {len : ℕ} {number : List UInt8 → ℕ} {num : α → ℕ}
    (hlen : ∀ x ∈ xs, (code x).length = len)
    (hnumber : ∀ x ∈ xs, ∀ rest, number (code x ++ rest) = num x)
    (hcb : ∀ x ∈ xs, ∀ (i : ℕ) es,
      cb { args with index := (i : ℤ) + 1, value := bytes 8 (num x) }
        (opened es) = .ok (0, opened (Value.setKey es (pair (i + 1) x).1
          (pair (i + 1) x).2)))
    (i : ℕ) (es : Entries) (rest : List UInt8) :
    decodeNumbers cb args len number xs.length (xs.flatMap code ++ rest) i
      (opened es) = .ok (opened (build es (pairs pair (i + 1) xs))) := by
  induction xs generalizing i es with
  | nil => rfl
  | cons x xs ih =>
      have hx : x ∈ x :: xs := List.mem_cons_self
      rw [List.length_cons, decodeNumbers, List.flatMap_cons,
        List.append_assoc, hnumber x hx, hcb x hx]
      dsimp only [Except.bind]
      rw [List.drop_left' (hlen x hx)]
      exact ih (fun y hy => hlen y (List.mem_cons_of_mem _ hy))
        (fun y hy => hnumber y (List.mem_cons_of_mem _ hy))
        (fun y hy => hcb y (List.mem_cons_of_mem _ hy)) (i + 1) _

/-- Strings and structs are put into the open array. -/
theorem decodeObjects_spec
    (hlength : ∀ x ∈ xs, (code x).length < 2 ^ 32)
    (hcb : ∀ x ∈ xs, ∀ (i : ℕ) es, 0 < i →
      cb { args with index := (i : ℤ), value := code x } (opened es) =
        .ok (0, opened (Value.setKey es (pair i x).1 (pair i x).2)))
    {i fuel : ℕ} (hi : 0 < i) (es : Entries) (rest : List UInt8)
    (hfuel : (xs.flatMap (objectCode ∘ code)).length ≤ fuel) :
    decodeObjects cb args fuel (xs.flatMap (objectCode ∘ code) ++ rest)
      (xs.flatMap (objectCode ∘ code)).length i (opened es) =
      .ok (some (opened (build es (pairs pair i xs)))) := by
  induction xs generalizing i fuel es with
  | nil =>
      cases fuel with
      | zero | succ fuel => rfl
  | cons x xs ih =>
      have hx : x ∈ x :: xs := List.mem_cons_self
      rw [List.flatMap_cons, Function.comp_apply, List.length_append] at hfuel
      rw [List.flatMap_cons, Function.comp_apply, List.append_assoc,
        List.length_append]
      generalize htail : xs.flatMap (objectCode ∘ code) = tail at hfuel ⊢
      have hcode := length_objectCode (code x)
      have hfour : sizeofLength = 4 := rfl
      obtain ⟨k, hk⟩ : ∃ k, (objectCode (code x)).length + tail.length = k + 1 :=
        ⟨_, (Nat.succ_pred_eq_of_pos (by omega)).symm⟩
      cases fuel with
      | zero => omega
      | succ fuel =>
          rw [hk, decodeObjects, ← hk, if_neg (by omega),
            todword_objectCode (hlength x hx), drop_objectCode]
          · dsimp only
            rw [if_neg (by omega), List.take_left, List.drop_left,
              hcb x hx i es hi]
            dsimp only [Except.bind]
            rw [if_neg (not_not_intro rfl)]
            have hrest : (objectCode (code x)).length + tail.length -
                sizeofLength - (code x).length = tail.length := by omega
            rw [hrest, ← htail]
            exact ih (fun y hy => hlength y (List.mem_cons_of_mem _ hy))
              (fun y hy => hcb y (List.mem_cons_of_mem _ hy)) (Nat.succ_pos i)
              _ (by rw [htail]; omega)
          · exact Nat.succ_ne_zero k

theorem decodeNumbers_first
    {len n : ℕ} {number : List UInt8 → ℕ} {stream : List UInt8} {ud ud' : σ}
    (h : ∀ value, cb { args with index := 1, value := value } ud =
      cb { args with index := 1, value := value } ud') :
    decodeNumbers cb args len number (n + 1) stream 0 ud =
      decodeNumbers cb args len number (n + 1) stream 0 ud' := by
  rw [decodeNumbers, decodeNumbers]
  exact congrArg (Except.bind · _) (h _)

theorem decodeObjects_first
    {fuel sz : ℕ} {stream : List UInt8} {ud ud' : σ} (hsz : sz ≠ 0)
    (h : ∀ value, cb { args with index := 1, value := value } ud =
      cb { args with index := 1, value := value } ud') :
    decodeObjects cb args fuel stream sz 1 ud =
      decodeObjects cb args fuel stream sz 1 ud' := by
  cases fuel with
  | zero =>
      cases sz with
      | zero => exact absurd rfl hsz
      | succ sz => rfl
  | succ fuel =>
      rw [decodeObjects, decodeObjects]
      · split
        · rfl
        · dsimp only
          split
          · rfl
          · exact congrArg (Except.bind · _) (h _)
      · exact hsz
      · exact hsz

end Arrays

section Fields

variable {sp : Sproto} {numbers : Numbers} {level : ℕ} {f : Field}
  {self : DecodeUd}

theorem decodeField_array
    {σ : Type*} {cb : Arg → σ → Except Failure (ℤ × σ)} {ud : σ}
    {data : List UInt8} (harray : f.array = true) :
    decodeField cb f 0 data ud = decodeArray cb f.args data ud := by
  unfold decodeField
  rw [if_pos rfl, harray, if_pos rfl]

theorem fieldReads_empty
    (harray : f.array = true) (htag : self.arrayTag ≠ some f.tag) :
    FieldReads (decode sp numbers (level + 1)) f (.data []) self
      (self.withArray f []) := by
  intro rest
  rw [Cell.value, decodeField_array harray]
  unfold decodeArray
  rw [Cell.code, todword_objectCode (by decide), if_pos List.length_nil]
  exact congrArg (Except.map fun r => some r.2) (decode_empty htag)

/-- The entry of an element that has its index as its key. -/
def indexed {α : Type*} (dec : α → Value) (i : ℕ) (x : α) : Atom × Value :=
  (.integer (BitVec.ofNat 64 i), dec x)

theorem fieldReads_integers
    {xs : List (BitVec 64)} (harray : f.array = true)
    (htype : f.type = .integer) (hextra : f.extra = 0)
    (htag : self.arrayTag ≠ some f.tag)
    (hlength : (integersBlock xs).length < 2 ^ 32) :
    FieldReads (decode sp numbers (level + 1)) f (.data (integersBlock xs))
      self (self.withArray f (build []
        (pairs (indexed fun x => .atom (.integer x)) 1 xs))) := by
  cases xs with
  | nil => exact fieldReads_empty harray htag
  | cons x xs =>
      intro rest
      have hargs : f.args.type = .integer := htype
      have hw := integerWidth_cases (x :: xs)
      rw [Cell.value, decodeField_array harray]
      unfold decodeArray
      rw [Cell.code, todword_objectCode hlength, drop_objectCode, hargs]
      rw [integersBlock, List.length_cons, length_integersCode]
      generalize hxs : x :: xs = ys at hw ⊢
      have hpos : ys.length ≠ 0 := by
        rw [← hxs]
        exact Nat.succ_ne_zero _
      have hwidth : ∀ y ∈ ys, integerWidth ys = 4 → Narrow y := by
        intro y hy hfour
        unfold integerWidth at hfour
        split at hfour
        · rename_i hnarrow
          exact hnarrow y hy
        · cases hfour
      generalize integerWidth ys = w at hw hwidth ⊢
      have hbyte : number ((UInt8.ofNat w :: integersCode w ys ++ rest).take
          1) = w := by
        rcases hw with rfl | rfl
        all_goals rfl
      have hsizes : w = sizeofInt32 ∨ w = sizeofInt64 := hw
      dsimp only
      rw [if_neg (Nat.succ_ne_zero _), hbyte, if_pos hsizes,
        Nat.add_sub_cancel, Nat.mul_mod_left, if_neg (not_not_intro rfl),
        Nat.mul_div_cancel _ (by omega)]
      obtain ⟨n, hn⟩ := Nat.exists_eq_succ_of_ne_zero hpos
      have hstep := @decodeNumbers_first _ (decode sp numbers (level + 1))
        f.args w n (integerAt w) (integersCode w ys ++ rest) self
        (self.withArray f []) fun _ => decode_first (by decide) htag
      have hloop := @decodeNumbers_spec _ _ (decode sp numbers (level + 1))
        f.args (self.withArray f)
        (indexed fun x : BitVec 64 => .atom (.integer x))
        (fun y => bytes w y.toNat) ys w (integerAt w) BitVec.toNat
        (fun y _ => length_bytes w _)
        (fun y hy rest => by
          rcases hw with rfl | rfl
          · exact integerAt_four (hwidth y hy rfl) rest
          · exact integerAt_eight y rest)
        (fun y hy i es => by
          have hput := @putValue_element f self es (bytes 8 y.toNat) (i + 1)
            (Nat.succ_pos i) (.atom (.integer y))
          have hvalue := @decodeValue_integer numbers (self.withArray f es)
            { f.args with index := ((i + 1 : ℕ) : ℤ),
                          value := bytes 8 y.toNat }
            (decodeStruct sp numbers level) htype hextra y rfl
          exact (decode_element _).trans (hvalue.trans hput)) 0 [] rest
      rw [hn] at hloop ⊢
      exact congrArg (Except.map some) (hstep.trans hloop)

theorem fieldReads_booleans
    {bs : List Bool} (harray : f.array = true) (htype : f.type = .boolean)
    (htag : self.arrayTag ≠ some f.tag) (hlength : bs.length < 2 ^ 32) :
    FieldReads (decode sp numbers (level + 1)) f
      (.data (bs.map booleanCode)) self (self.withArray f (build []
        (pairs (indexed fun b => .atom (.boolean b)) 1 bs))) := by
  cases hbs : bs with
  | nil => exact fieldReads_empty harray htag
  | cons b bs' =>
      intro rest
      have hargs : f.args.type = .boolean := htype
      rw [← hbs, Cell.value, decodeField_array harray]
      unfold decodeArray
      rw [Cell.code, todword_objectCode (by rw [List.length_map]; exact hlength),
        drop_objectCode, hargs, List.length_map]
      have hn : bs.length = bs'.length + 1 := by
        rw [hbs]
        exact List.length_cons
      dsimp only
      rw [if_neg (by omega)]
      have hstep := @decodeNumbers_first _ (decode sp numbers (level + 1))
        f.args 1 bs'.length (fun stream => number (stream.take 1))
        (bs.map booleanCode ++ rest) self (self.withArray f [])
        fun _ => decode_first (by decide) htag
      have hloop := @decodeNumbers_spec _ _ (decode sp numbers (level + 1))
        f.args (self.withArray f)
        (indexed fun b : Bool => .atom (.boolean b))
        (fun b => [booleanCode b]) bs 1 (fun stream => number (stream.take 1))
        Bool.toNat (fun b _ => rfl)
        (fun b _ rest => by
          cases b
          all_goals rfl)
        (fun b hb i es => by
          have hput := @putValue_element f self es (bytes 8 b.toNat) (i + 1)
            (Nat.succ_pos i) (.atom (.boolean b))
          have hvalue := @decodeValue_boolean numbers (self.withArray f es)
            { f.args with index := ((i + 1 : ℕ) : ℤ),
                          value := bytes 8 b.toNat }
            (decodeStruct sp numbers level) htype b rfl
          exact (decode_element _).trans (hvalue.trans hput)) 0 [] rest
      have hmap : bs.flatMap (fun b => [booleanCode b]) =
          bs.map booleanCode :=
        (List.map_eq_flatMap (f := booleanCode)).symm
      rw [hmap, hn] at hloop
      rw [hn]
      exact congrArg (Except.map some) (hstep.trans hloop)

theorem length_code_le
    {α : Type*} {xs : List α} {code : α → List UInt8} {x : α} (hx : x ∈ xs) :
    (code x).length ≤ (xs.flatMap (objectCode ∘ code)).length := by
  have hle : (objectCode (code x)).length ≤
      (xs.flatMap (objectCode ∘ code)).length := by
    rw [List.flatMap_def]
    exact (List.sublist_flatten_of_mem
      (List.mem_map_of_mem (f := objectCode ∘ code) hx)).length_le
  rw [length_objectCode] at hle
  omega

/-- Strings and structs, each of them with its entry. -/
theorem fieldReads_objects
    {α : Type*} {xs : List α} {code : α → List UInt8}
    {pair : ℕ → α → Atom × Value} (harray : f.array = true)
    (htype : f.type ≠ .integer ∧ f.type ≠ .boolean)
    (htag : self.arrayTag ≠ some f.tag)
    (hlength : (xs.flatMap (objectCode ∘ code)).length < 2 ^ 32)
    (hcb : ∀ x ∈ xs, ∀ (i : ℕ) es, 0 < i →
      decodeValue numbers (decodeStruct sp numbers level)
        { f.args with index := (i : ℤ), value := code x }
        (self.withArray f es) = .ok (0, self.withArray f
          (Value.setKey es (pair i x).1 (pair i x).2))) :
    FieldReads (decode sp numbers (level + 1)) f
      (.data (xs.flatMap (objectCode ∘ code))) self
      (self.withArray f (build [] (pairs pair 1 xs))) := by
  cases hxs : xs with
  | nil => exact fieldReads_empty harray htag
  | cons x xs' =>
      intro rest
      have hne : (xs.flatMap (objectCode ∘ code)).length ≠ 0 := by
        have hcode := length_objectCode (code x)
        have hfour : sizeofLength = 4 := rfl
        rw [hxs, List.flatMap_cons, List.length_append, Function.comp_apply]
        omega
      rw [← hxs, Cell.value, decodeField_array harray]
      unfold decodeArray
      rw [Cell.code, todword_objectCode hlength, drop_objectCode, if_neg hne]
      have hsmall : ∀ x ∈ xs, (code x).length < 2 ^ 32 := fun x hx =>
        Nat.lt_of_le_of_lt (length_code_le hx) hlength
      have hloop := @decodeObjects_spec _ _ (decode sp numbers (level + 1))
        f.args (self.withArray f) pair code xs hsmall
        (fun x hx i es hi => (decode_element _).trans (hcb x hx i es hi))
        1 (xs.flatMap (objectCode ∘ code)).length Nat.one_pos [] rest
        (Nat.le_refl _)
      dsimp only
      split
      · rename_i h
        exact absurd h htype.1
      · rename_i h
        exact absurd h htype.2
      · refine (decodeObjects_first hne fun _ => ?_).trans hloop
        exact decode_first (by decide) htag

end Fields

end SkynetServer.Sproto
