import SkynetServer.Sproto.Structs
import SkynetServer.Seri.Tables

/-!
# Encoding the fields of a table

What the callback `encode` makes `sproto_encode` write for the value of one
field.
-/

namespace SkynetServer.Sproto

open LittleEndian Memory Seri

/-! ## Cells -/

section Cells

variable {σ : Type*} {cb : Arg → σ → Except Failure (Reply σ)} {f : Field}
  {ud ud' : σ}

/-- A payload behind its size. -/
theorem fillSize_eq
    {data payload : List UInt8}
    (h : sizeofLength + payload.length ≤ data.length) :
    ∃ data', fillSize (store data sizeofLength payload) payload.length =
        (data', (objectCode payload).length) ∧
      Written data data' (objectCode payload) := by
  obtain ⟨size, data, hsize, heq⟩ := exists_cells [] (Nat.le_of_add_right_le h)
  rw [List.nil_append, List.nil_append] at heq
  subst heq
  rw [List.length_append, hsize] at h
  obtain ⟨old, rest, hold, heq⟩ := exists_cells [] (Nat.le_of_add_le_add_left h)
  rw [List.nil_append, List.nil_append] at heq
  subst heq
  have hstore := store_append hold size rest
  rw [hsize] at hstore
  have hfill := @store_append _ size (bytes sizeofLength payload.length)
    (by rw [length_bytes, hsize]) [] (payload ++ rest)
  rw [List.nil_append, List.nil_append, List.length_nil] at hfill
  refine ⟨objectCode payload ++ rest, ?_, ?_, rest, rfl⟩
  · rw [hstore, fillSize, hfill, length_objectCode, Nat.add_comm, objectCode,
      List.append_assoc]
  · simp only [List.length_append, length_objectCode, hsize, hold]
    omega

theorem encodeInteger_spec (v : ℕ) (data : List UInt8) :
    encodeInteger v data = none ∧ data.length < 8 ∨
      ∃ data', encodeInteger v data =
          some (data', (Cell.data (bytes 4 v)).sz) ∧
        Written data data' (objectCode (bytes 4 v)) := by
  unfold encodeInteger
  split
  · rename_i hlt
    exact .inl ⟨rfl, hlt⟩
  · rename_i hge
    have hroom : sizeofLength + (bytes 4 v).length ≤ data.length := by
      rw [length_bytes]
      exact Nat.le_of_not_lt hge
    obtain ⟨data', hfill, hwritten⟩ := fillSize_eq hroom
    refine .inr ⟨data', ?_, hwritten⟩
    rw [length_bytes, length_objectCode, length_bytes] at hfill
    rw [Cell.sz, length_bytes]
    exact congrArg some hfill

theorem encodeUint64_spec (v : ℕ) (data : List UInt8) :
    encodeUint64 v data = none ∧ data.length < 12 ∨
      ∃ data', encodeUint64 v data =
          some (data', (Cell.data (bytes 8 v)).sz) ∧
        Written data data' (objectCode (bytes 8 v)) := by
  unfold encodeUint64
  split
  · rename_i hlt
    exact .inl ⟨rfl, hlt⟩
  · rename_i hge
    have hroom : sizeofLength + (bytes 8 v).length ≤ data.length := by
      rw [length_bytes]
      exact Nat.le_of_not_lt hge
    obtain ⟨data', hfill, hwritten⟩ := fillSize_eq hroom
    refine .inr ⟨data', ?_, hwritten⟩
    rw [length_bytes, length_objectCode, length_bytes] at hfill
    rw [Cell.sz, length_bytes]
    exact congrArg some hfill

theorem written_self (data : List UInt8) : Written data data [] :=
  ⟨rfl, List.nil_prefix⟩

/-- A field that is no array and nil. -/
theorem fieldWrites_nil
    (harray : f.array = false)
    (hcb : ∀ value, cb { f.args with value := value } ud = .ok (.nil ud)) :
    FieldWrites cb f .absent ud ud := by
  refine ⟨sizeofLength, fun data => ?_⟩
  have hobject : encodeObject cb f.args data ud = .ok none ∧
      data.length < sizeofLength ∨
      encodeObject cb f.args data ud = .ok (some (data, 0, ud)) := by
    unfold encodeObject
    split
    · rename_i hlt
      exact .inl ⟨rfl, hlt⟩
    · rw [hcb]
      exact .inr rfl
  have hnumber : encodeNumber cb f.args data ud =
      .ok (.next (0, 0, data) ud) := by
    unfold encodeNumber
    rw [hcb]
    rfl
  have hsized : (encodeObject cb f.args data ud).map sized = .ok .fail ∧
      data.length < sizeofLength ∨
      ∃ data', (encodeObject cb f.args data ud).map sized =
        .ok (.next (0, 0, data') ud) ∧ Written data data' [] := by
    rcases hobject with ⟨hnone, hlt⟩ | hsome
    · rw [hnone]
      exact .inl ⟨rfl, hlt⟩
    · rw [hsome]
      exact .inr ⟨data, rfl, written_self data⟩
  unfold encodeField
  rw [harray, if_neg Bool.false_ne_true]
  split
  · exact .inr ⟨data, hnumber, written_self data⟩
  · exact .inr ⟨data, hnumber, written_self data⟩
  · exact hsized

/-- A string or a struct. -/
theorem fieldWrites_object
    {answer : List UInt8 → σ → Except Failure (Reply σ)} {code : List UInt8}
    (harray : f.array = false) (htype : f.type ≠ .integer ∧ f.type ≠ .boolean)
    (hcb : ∀ value, cb { f.args with value := value } ud = answer value ud)
    (hanswer : Answers answer code) :
    FieldWrites cb f (.data code) ud ud := by
  obtain ⟨need, hneed⟩ := hanswer
  refine ⟨sizeofLength + need, fun data => ?_⟩
  have hfield : encodeField cb f data ud =
      (encodeObject cb f.args data ud).map sized := by
    unfold encodeField
    rw [harray, if_neg Bool.false_ne_true]
    split
    · rename_i h
      exact absurd h htype.1
    · rename_i h
      exact absurd h htype.2
    · rfl
  rw [hfield, encodeObject]
  split
  · exact .inl ⟨rfl, by omega⟩
  · rename_i hge
    obtain ⟨size, value, hsize, heq⟩ :=
      exists_cells [] (Nat.le_of_not_lt hge)
    rw [List.nil_append, List.nil_append] at heq
    subst heq
    have htotal : (size ++ value).length = sizeofLength + value.length := by
      rw [List.length_append, hsize]
    rw [hcb, List.drop_left' hsize, List.take_left' hsize]
    rcases hneed value ud with ⟨herror, hlt⟩ | ⟨value', hsome, hwritten⟩
    · rw [herror]
      exact .inl ⟨rfl, by omega⟩
    · obtain ⟨hlength, rest, rfl⟩ := hwritten
      rw [List.length_append] at hlength
      rw [hsome]
      dsimp only [Except.bind]
      rw [if_pos (by omega)]
      have hfill := @store_append _ size (bytes sizeofLength code.length)
        (by rw [length_bytes, hsize]) [] (code ++ rest)
      rw [List.nil_append, List.nil_append, List.length_nil] at hfill
      refine .inr ⟨objectCode code ++ rest, ?_, ?_, rest, rfl⟩
      · rw [fillSize, hfill, objectCode, List.append_assoc]
        rfl
      · rw [List.length_append, length_objectCode, htotal]
        omega

theorem fieldWrites_array
    {block : List UInt8} (harray : f.array = true)
    (h : Writes (fun buffer => encodeElements cb f.args buffer ud) block
      (false, ud')) :
    FieldWrites cb f (.data block) ud ud' := by
  obtain ⟨need, hneed⟩ := writes_array h
  refine ⟨need, fun data => ?_⟩
  unfold encodeField
  rw [harray, if_pos rfl]
  rcases hneed data with ⟨hnone, hlt⟩ | ⟨data', hsome, hwritten⟩
  · dsimp only at hnone
    rw [hnone]
    exact .inl ⟨rfl, hlt⟩
  · dsimp only at hsome
    rw [hsome]
    refine .inr ⟨data', ?_, hwritten⟩
    rw [length_objectCode, Nat.add_comm]
    rfl

theorem fieldWrites_noarray
    (harray : f.array = true)
    (hcb : ∀ value, cb { f.args with value := value, index := (1 : ℕ) } ud =
      .ok (.noarray ud')) :
    FieldWrites cb f .absent ud ud' := by
  obtain ⟨need, hneed⟩ := writes_noarray hcb
  refine ⟨need, fun data => ?_⟩
  unfold encodeField
  rw [harray, if_pos rfl]
  rcases hneed data with ⟨hnone, hlt⟩ | ⟨data', hsome, hwritten⟩
  · dsimp only at hnone
    rw [hnone]
    exact .inl ⟨rfl, hlt⟩
  · dsimp only at hsome
    rw [hsome]
    exact .inr ⟨data', rfl, hwritten⟩

end Cells

/-! ## The callback -/

/-- How `encode` encodes a struct. -/
def encodeStruct (sp : Sproto) (numbers : Numbers) (level st : ℕ) (v : Value)
    (value : List UInt8) : Except Failure (Option (List UInt8 × ℕ)) :=
  (sprotoEncode (encode sp numbers level) (sp.type st) value
    ⟨v, none, [], []⟩).map fun r => r.map fun (value, r, _) => (value, r)

/-- The answer to a request for a string. -/
def stringAnswer (str value : List UInt8) (ud : EncodeUd) :
    Except Failure (Reply EncodeUd) :=
  if str.length > value.length then .ok .error
  else .ok (.size str.length (store value 0 str) ud)

/-- The answer to a request for a struct. -/
def structAnswer (sp : Sproto) (numbers : Numbers) (level st : ℕ) (v : Value)
    (value : List UInt8) (ud : EncodeUd) : Except Failure (Reply EncodeUd) :=
  (encodeStruct sp numbers level st v value).map fun
    | none => .error
    | some (value, r) => .size r value ud

theorem answers_string (str : List UInt8) :
    Answers (stringAnswer str) str := by
  refine ⟨str.length, fun value ud => ?_⟩
  unfold stringAnswer
  split
  · rename_i hlt
    exact .inl ⟨rfl, hlt⟩
  · rename_i hge
    obtain ⟨old, rest, hold, heq⟩ :=
      exists_cells [] (Nat.le_of_not_lt hge)
    rw [List.nil_append, List.nil_append] at heq
    subst heq
    have hstore := store_append hold [] rest
    rw [List.nil_append, List.nil_append, List.length_nil] at hstore
    refine .inr ⟨str ++ rest, ?_, ?_, rest, rfl⟩
    · rw [hstore]
    · rw [List.length_append, List.length_append, hold]

section Callback

variable {sp : Sproto} {numbers : Numbers} {level : ℕ} {args : Arg}
  {self self' : EncodeUd} {v : Value}

theorem answers_struct
    {st : ℕ} {code : List UInt8} {ud : EncodeUd}
    (h : Writes (fun buffer => sprotoEncode (encode sp numbers level)
      (sp.type st) buffer ⟨v, none, [], []⟩) code ud) :
    Answers (structAnswer sp numbers level st v) code := by
  obtain ⟨need, hneed⟩ := h
  refine ⟨need, fun value self => ?_⟩
  unfold structAnswer encodeStruct
  rcases hneed value with ⟨hnone, hlt⟩ | ⟨value', hsome, hwritten⟩
  · dsimp only at hnone
    rw [hnone]
    exact .inl ⟨rfl, hlt⟩
  · dsimp only at hsome
    rw [hsome]
    exact .inr ⟨value', rfl, hwritten⟩

theorem encode_value
    (hfetch : fetch args self = .ok (some v, self')) (hv : v ≠ .atom .nil) :
    encode sp numbers (level + 1) args self =
      encodeValue numbers (encodeStruct sp numbers level) args v self' := by
  rw [encode, hfetch]
  dsimp only [Except.bind]
  split
  · rename_i h
    cases h
  · rename_i h
    cases h
    exact absurd rfl hv
  · rename_i h
    cases h
    rfl

theorem encode_nil (hfetch : fetch args self = .ok (some (.atom .nil), self')) :
    encode sp numbers (level + 1) args self = .ok (.nil self') := by
  rw [encode, hfetch]
  rfl

theorem encode_noarray (hfetch : fetch args self = .ok (none, self')) :
    encode sp numbers (level + 1) args self = .ok (.noarray self') := by
  rw [encode, hfetch]
  rfl

/-! ## Values -/

variable {sub : ℕ → Value → List UInt8 →
  Except Failure (Option (List UInt8 × ℕ))}

theorem encodeValue_integer
    (htype : args.type = .integer) (hextra : args.extra = 0) (x : BitVec 64) :
    encodeValue numbers sub args (.atom (.integer x)) self =
      integerAnswer x args.value self := by
  unfold encodeValue
  rw [htype]
  dsimp only
  rw [if_neg (not_not_intro hextra)]
  rfl

theorem encodeValue_boolean (htype : args.type = .boolean) (b : Bool) :
    encodeValue numbers sub args (.atom (.boolean b)) self =
      booleanAnswer b args.value self := by
  unfold encodeValue
  rw [htype]
  rfl

theorem encodeValue_string
    (htype : args.type = .string) (str : List UInt8) :
    encodeValue numbers sub args (.atom (.string str)) self =
      stringAnswer str args.value self := by
  unfold encodeValue
  rw [htype]
  rfl

theorem encodeValue_struct
    {st : ℕ} (htype : args.type = .struct st) (v : Value) :
    encodeValue numbers (encodeStruct sp numbers level) args v self =
      structAnswer sp numbers level st v args.value self := by
  unfold encodeValue
  rw [htype]
  rfl

/-! ## Elements -/

variable {border : ℕ} {es : Entries}

theorem fetch_field
    (hindex : args.index = 0) (htbl : self.tbl = .table border es) :
    fetch args self =
      .ok (some (Value.rawget es (.string args.tagname)), self) := by
  unfold fetch
  rw [hindex, if_neg (by decide), htbl]
  rfl

/-- The state with the array of a field open. -/
def EncodeUd.opened (self : EncodeUd) (tag : ℕ) (array iter : Entries) :
    EncodeUd :=
  ⟨self.tbl, some tag, array, iter⟩

theorem openArray_opened (array iter : Entries) :
    openArray args (self.opened args.tagid array iter) =
      .ok (true, self.opened args.tagid array iter) :=
  if_pos rfl

/-- The first request opens the array. -/
theorem fetch_first
    {array : Entries} {border' : ℕ} (hindex : 0 < args.index)
    (htbl : self.tbl = .table border es)
    (htag : self.arrayTag ≠ some args.tagid)
    (harray : Value.rawget es (.string args.tagname) = .table border' array) :
    fetch args self =
      fetch args (self.opened args.tagid array array) := by
  unfold fetch
  rw [if_pos hindex, if_pos hindex]
  congr 1
  rw [openArray_opened]
  unfold openArray
  rw [if_neg htag, htbl]
  dsimp only [getfield, Except.bind]
  rw [harray]
  dsimp only
  rw [← htbl]
  rfl

theorem fetch_noarray
    (hindex : 0 < args.index) (htbl : self.tbl = .table border es)
    (htag : self.arrayTag ≠ some args.tagid)
    (hnil : Value.rawget es (.string args.tagname) = .atom .nil) :
    fetch args self = .ok (none,
      { self with arrayTag := some args.tagid, array := [] }) := by
  unfold fetch
  rw [if_pos hindex]
  unfold openArray
  rw [if_neg htag, htbl]
  dsimp only [getfield, Except.bind]
  rw [hnil]
  rfl

theorem fetch_index
    {array iter : Entries} (hindex : 0 < args.index)
    (hkey : args.mainindex = none) :
    fetch args (self.opened args.tagid array iter) =
      .ok (some (Value.rawgeti array args.index.toNat),
        self.opened args.tagid array iter) := by
  unfold fetch
  rw [if_pos hindex, openArray_opened, hkey]
  rfl

theorem fetch_next
    {array iter : Entries} {e : Value × Value} (hindex : 0 < args.index)
    (hkey : args.mainindex.isSome) :
    fetch args (self.opened args.tagid array (e :: iter)) =
      .ok (some e.2, self.opened args.tagid array iter) := by
  unfold fetch
  rw [if_pos hindex, openArray_opened]
  dsimp only [Except.map]
  rw [if_pos hkey]
  rfl

theorem fetch_end
    {array : Entries} (hindex : 0 < args.index) (hkey : args.mainindex.isSome) :
    fetch args (self.opened args.tagid array []) =
      .ok (some (.atom .nil), self.opened args.tagid array array) := by
  unfold fetch
  rw [if_pos hindex, openArray_opened]
  dsimp only [Except.map]
  rw [if_pos hkey]
  rfl

theorem encode_congr (hfetch : fetch args self = fetch args self') :
    encode sp numbers (level + 1) args self =
      encode sp numbers (level + 1) args self' := by
  rw [encode, encode, hfetch]

/-! ## Feeding the elements -/

variable {α : Type*}
  {answer : α → List UInt8 → EncodeUd → Except Failure (Reply EncodeUd)}
  {g : α → Value} {xs : List α} {array : Entries}

/-- The callback answers for each element, wherever it is. -/
def AnswersFor (sp : Sproto) (numbers : Numbers) (level : ℕ) (args : Arg)
    (g : α → Value)
    (answer : α → List UInt8 → EncodeUd → Except Failure (Reply EncodeUd))
    (xs : List α) : Prop :=
  ∀ x ∈ xs, g x ≠ .atom .nil ∧ ∀ (i : ℤ) value self,
    encodeValue numbers (encodeStruct sp numbers level)
      { args with value := value, index := i } (g x) self =
      answer x value self

theorem AnswersFor.tail
    {x : α} (h : AnswersFor sp numbers level args g answer (x :: xs)) :
    AnswersFor sp numbers level args g answer xs :=
  fun y hy => h y (List.mem_cons_of_mem _ hy)

/-- The elements at the indices from `i` on. -/
theorem feeds_index
    {i : ℕ} (hi : 0 < i) (hkey : args.mainindex = none)
    (hanswer : AnswersFor sp numbers level args g answer xs)
    (hget : ∀ j ≤ xs.length, Value.rawgeti array (i + j) =
      ((xs.map g)[j]?).getD (.atom .nil)) :
    Feeds (encode sp numbers (level + 1)) args answer i xs
      (self.opened args.tagid array array)
      (self.opened args.tagid array array) := by
  induction xs generalizing i with
  | nil =>
      intro value
      refine encode_nil ?_
      have hfetch := @fetch_index { args with value := value, index := i } self
        array array (Int.natCast_pos.2 hi) hkey
      rw [hfetch]
      dsimp only
      rw [Int.toNat_natCast, show i = i + 0 from rfl, hget 0 (Nat.zero_le _)]
      rfl
  | cons x xs ih =>
      obtain ⟨hx, hvalue⟩ := hanswer x List.mem_cons_self
      refine ⟨self.opened args.tagid array array, fun value => ?_, ?_⟩
      · have hfetch := @fetch_index { args with value := value, index := i }
          self array array (Int.natCast_pos.2 hi) hkey
        dsimp only at hfetch
        rw [Int.toNat_natCast, show i = i + 0 from rfl,
          hget 0 (Nat.zero_le _)] at hfetch
        exact (encode_value hfetch hx).trans (hvalue i value _)
      · refine ih (Nat.succ_pos i) hanswer.tail fun j hj => ?_
        rw [Nat.add_assoc, Nat.add_comm 1, hget (j + 1) (Nat.succ_le_succ hj)]
        rfl

/-- The elements that `next_list` visits. -/
theorem feeds_next
    {i : ℕ} {iter : Entries} (hi : 0 < i) (hkey : args.mainindex.isSome)
    (hanswer : AnswersFor sp numbers level args g answer xs)
    (hiter : iter.map (·.2) = xs.map g) :
    Feeds (encode sp numbers (level + 1)) args answer i xs
      (self.opened args.tagid array iter)
      (self.opened args.tagid array array) := by
  induction xs generalizing i iter with
  | nil =>
      intro value
      have hnil := List.map_eq_nil_iff.1 hiter
      subst hnil
      exact encode_nil (@fetch_end { args with value := value, index := i } self
        array (Int.natCast_pos.2 hi) hkey)
  | cons x xs ih =>
      obtain ⟨hx, hvalue⟩ := hanswer x List.mem_cons_self
      cases iter with
      | nil => cases hiter
      | cons e iter =>
          rw [List.map_cons, List.map_cons, List.cons.injEq] at hiter
          refine ⟨self.opened args.tagid array iter, fun value => ?_,
            ih (Nat.succ_pos i) hanswer.tail hiter.2⟩
          have hfetch := @fetch_next { args with value := value, index := i }
            self array iter e (Int.natCast_pos.2 hi) hkey
          rw [hiter.1] at hfetch
          exact (encode_value hfetch hx).trans (hvalue i value _)

/-- The elements, when the array is not open yet. -/
theorem feeds_first
    {border' : ℕ} {ud : EncodeUd} (htbl : self.tbl = .table border es)
    (htag : self.arrayTag ≠ some args.tagid)
    (harray : Value.rawget es (.string args.tagname) = .table border' array)
    (h : Feeds (encode sp numbers (level + 1)) args answer 1 xs
      (self.opened args.tagid array array) ud) :
    Feeds (encode sp numbers (level + 1)) args answer 1 xs self ud := by
  have hfirst : ∀ value, encode sp numbers (level + 1)
      { args with value := value, index := (1 : ℕ) } self =
      encode sp numbers (level + 1)
        { args with value := value, index := (1 : ℕ) }
        (self.opened args.tagid array array) := fun value =>
    encode_congr (@fetch_first { args with value := value, index := (1 : ℕ) }
      self border es array border' (Int.natCast_pos.2 Nat.one_pos) htbl htag
      harray)
  cases xs with
  | nil =>
      intro value
      rw [hfirst]
      exact h value
  | cons x xs =>
      obtain ⟨next, hcb, hfeeds⟩ := h
      refine ⟨next, fun value => ?_, hfeeds⟩
      rw [hfirst]
      exact hcb value

/-! ## Numbers -/

/-- The cell of an integer. -/
def integerCell (x : BitVec 64) : Cell :=
  if Narrow x then
    if x.toNat % 2 ^ 32 < 0x7fff then .inline (x.toNat % 2 ^ 32)
    else .data (bytes 4 x.toNat)
  else .data (bytes 8 x.toNat)

variable {f : Field}

theorem encodeField_number
    {σ : Type*} {cb : Arg → σ → Except Failure (Reply σ)} {data : List UInt8}
    {ud : σ} (harray : f.array = false)
    (htype : f.type = .integer ∨ f.type = .boolean) :
    encodeField cb f data ud = encodeNumber cb f.args data ud := by
  unfold encodeField
  rw [harray, if_neg Bool.false_ne_true]
  rcases htype with htype | htype
  · rw [htype]
  · rw [htype]

theorem fieldWrites_integer
    {x : BitVec 64} (harray : f.array = false) (htype : f.type = .integer)
    (hcb : ∀ value, encode sp numbers level { f.args with value := value }
      self = integerAnswer x value self) :
    FieldWrites (encode sp numbers level) f (integerCell x) self self := by
  refine ⟨12, fun data => ?_⟩
  rw [encodeField_number harray (.inl htype), encodeNumber, hcb,
    integerAnswer]
  unfold integerCell
  by_cases hx : Narrow x
  · have hwrite : writeInteger x (List.replicate 8 0) self =
        .size 4 (store (List.replicate 8 0) 0 (bytes 4 x.toNat)) self :=
      if_pos hx
    rw [if_pos hx, hwrite]
    dsimp only [Except.map]
    rw [if_pos (show 4 = sizeofInt32 from rfl), todword_store]
    split
    · exact .inr ⟨data, rfl, written_self data⟩
    · rcases encodeInteger_spec (x.toNat % 2 ^ 32) data with
        ⟨hnone, hlt⟩ | ⟨data', hsome, hwritten⟩
      · rw [hnone]
        exact .inl ⟨rfl, by omega⟩
      · rw [hsome]
        have hmod : bytes 4 (x.toNat % 2 ^ 32) = bytes 4 x.toNat :=
          bytes_mod 4 x.toNat
        rw [hmod] at hwritten ⊢
        exact .inr ⟨data', rfl, hwritten⟩
  · have hwrite : writeInteger x (List.replicate 8 0) self =
        .size 8 (store (List.replicate 8 0) 0 (bytes 8 x.toNat)) self :=
      if_neg hx
    rw [if_neg hx, hwrite]
    dsimp only [Except.map]
    rw [if_neg (by decide), if_pos (show 8 = sizeofInt64 from rfl), take_store,
      number_bytes_of_lt x.isLt]
    rcases encodeUint64_spec x.toNat data with
      ⟨hnone, hlt⟩ | ⟨data', hsome, hwritten⟩
    · rw [hnone]
      exact .inl ⟨rfl, hlt⟩
    · rw [hsome]
      exact .inr ⟨data', rfl, hwritten⟩

theorem fieldWrites_boolean
    {b : Bool} (harray : f.array = false) (htype : f.type = .boolean)
    (hcb : ∀ value, encode sp numbers level { f.args with value := value }
      self = booleanAnswer b value self) :
    FieldWrites (encode sp numbers level) f (.inline b.toNat) self self := by
  refine ⟨0, fun data => .inr ⟨data, ?_, written_self data⟩⟩
  rw [encodeField_number harray (.inr htype), encodeNumber, hcb,
    booleanAnswer]
  dsimp only [Except.map]
  rw [if_pos (show 4 = sizeofInt32 from rfl), todword_store]
  cases b
  all_goals rfl

end Callback

end SkynetServer.Sproto
