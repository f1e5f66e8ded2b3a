import SkynetServer.Sproto.Arrays
import SkynetServer.Sproto.Loaded

/-!
# Structs

The header of an encoded struct has a record for each field that is present,
and one before it if tags are skipped; the data of the fields follows.  The
records never reach the data, which starts behind `maxn` of them and is moved
at the end.
-/

namespace SkynetServer.Sproto

open LittleEndian Memory

/-- What a field leaves in the buffer: nothing, a value in its record, or
data. -/
inductive Cell where
  | absent
  | inline (u32 : ℕ)
  | data (payload : List UInt8)

namespace Cell

/-- The record of the field. -/
def value : Cell → ℕ
  | absent => 0
  | inline u32 => (u32 + 1) * 2
  | data _ => 0

/-- The size that decides whether there is a record. -/
def sz : Cell → ℕ
  | absent => 0
  | inline _ => 2
  | data payload => payload.length + sizeofLength

/-- The data of the field. -/
def code : Cell → List UInt8
  | absent => []
  | inline _ => []
  | data payload => objectCode payload

end Cell

/-- The record that skips tags. -/
def skip (tag : ℤ) : List ℕ :=
  if tag > 0 then [((tag - 1) * 2 + 1).toNat] else []

/-- The records of the fields behind the tag `last`. -/
def records : ℤ → List (Field × Cell) → List ℕ
  | _, [] => []
  | last, (f, cell) :: cells =>
    if cell.sz = 0 then records last cells
    else skip (f.tag - last - 1) ++ cell.value :: records f.tag cells

def recordsCode (rs : List ℕ) : List UInt8 := rs.flatMap (bytes 2)

def cellsCode (cells : List (Field × Cell)) : List UInt8 :=
  cells.flatMap fun p => p.2.code

theorem cellsCode_cons
    (f : Field) (cell : Cell) (cells : List (Field × Cell)) :
    cellsCode ((f, cell) :: cells) = cell.code ++ cellsCode cells :=
  List.flatMap_cons

/-- An encoded struct. -/
def structCode (cells : List (Field × Cell)) : List UInt8 :=
  bytes 2 (records (-1) cells).length ++
    (recordsCode (records (-1) cells) ++ cellsCode cells)

@[simp] theorem length_recordsCode (rs : List ℕ) :
    (recordsCode rs).length = rs.length * 2 := by
  induction rs with
  | nil => rfl
  | cons r rs ih =>
      rw [recordsCode, List.flatMap_cons, List.length_append, length_bytes,
        ← recordsCode, ih, List.length_cons, Nat.succ_mul, Nat.add_comm]

theorem recordsCode_append (rs rs' : List ℕ) :
    recordsCode (rs ++ rs') = recordsCode rs ++ recordsCode rs' :=
  List.flatMap_append

/-! ## The order of the fields -/

/-- The tags ascend from `last`. -/
def Ascending : ℤ → List (Field × Cell) → Prop
  | _, [] => True
  | last, (f, _) :: cells =>
    last < f.tag ∧ f.tag < tagLimit ∧ Ascending f.tag cells

variable {cells : List (Field × Cell)}

theorem Ascending.mono
    {last last' : ℤ} (h : Ascending last cells)
    (hle : last' ≤ last) : Ascending last' cells := by
  cases cells with
  | nil => exact trivial
  | cons p cells => exact ⟨Int.lt_of_le_of_lt hle h.1, h.2⟩

theorem ascending_of_pairwise
    {last : ℤ} (hlast : ∀ p ∈ cells, last < p.1.tag)
    (hlt : ∀ p ∈ cells, p.1.tag < tagLimit)
    (hpairwise : (cells.map (·.1)).Pairwise fun f g => f.tag < g.tag) :
    Ascending last cells := by
  induction cells generalizing last with
  | nil => exact trivial
  | cons p cells ih =>
      obtain ⟨hhead, htail⟩ := List.pairwise_cons.1 hpairwise
      refine ⟨hlast p List.mem_cons_self, hlt p List.mem_cons_self, ih ?_ ?_
        htail⟩
      · intro q hq
        exact Int.ofNat_lt.2 (hhead q.1 (List.mem_map_of_mem hq))
      · intro q hq
        exact hlt q (List.mem_cons_of_mem _ hq)

theorem SprotoType.Loaded.ascending_cells
    {st : SprotoType} (h : st.Loaded)
    (hcells : cells.map (·.1) = st.f) : Ascending (-1) cells := by
  have hmem : ∀ p ∈ cells, p.1 ∈ st.f := by
    intro p hp
    rw [← hcells]
    exact List.mem_map_of_mem hp
  refine ascending_of_pairwise ?_ ?_ ?_
  · intro p _
    omega
  · intro p hp
    exact h.tag_lt p.1 (hmem p hp)
  · rw [hcells]
    exact h.ascending

theorem length_skip_le {tag : ℤ} (h : 0 ≤ tag) :
    ((skip tag).length : ℤ) ≤ tag := by
  unfold skip
  split
  · rw [List.length_singleton]
    omega
  · exact h

/-- There are no more records than tags. -/
theorem length_records_le
    {last : ℤ} (h : Ascending last cells) (hlast : last < tagLimit) :
    ((records last cells).length : ℤ) + last + 1 ≤ tagLimit := by
  induction cells generalizing last with
  | nil =>
      rw [records, List.length_nil]
      omega
  | cons p cells ih =>
      obtain ⟨f, cell⟩ := p
      obtain ⟨hlt, hlimit, hrest⟩ := h
      rw [records]
      split
      · exact ih (hrest.mono (by omega)) hlast
      · have hskip := length_skip_le
          (show 0 ≤ (f.tag : ℤ) - last - 1 by omega)
        have hrecords := ih hrest (by omega)
        rw [List.length_append, List.length_cons]
        omega

theorem length_records_lt
    (h : Ascending (-1) cells) :
    (records (-1) cells).length < 2 ^ 16 := by
  have hle := length_records_le h (by decide)
  have hlimit : tagLimit = 0x7fff := rfl
  omega

/-! ## Encoding -/

section Encode

variable {σ : Type*} {cb : Arg → σ → Except Failure (Reply σ)}

/-- The field is written to any block as the cell says, or -1 is returned if
the block is too small. -/
def FieldWrites (cb : Arg → σ → Except Failure (Reply σ)) (f : Field)
    (cell : Cell) (ud ud' : σ) : Prop :=
  ∃ need, ∀ data,
    encodeField cb f data ud = .ok .fail ∧ data.length < need ∨
      ∃ data', encodeField cb f data ud =
          .ok (.next (cell.value, cell.sz, data') ud') ∧
        Written data data' cell.code

def FieldsWrite (cb : Arg → σ → Except Failure (Reply σ)) :
    List (Field × Cell) → σ → σ → Prop
  | [], ud, ud' => ud = ud'
  | (f, cell) :: cells, ud, ud' =>
    ∃ next, FieldWrites cb f cell ud next ∧ FieldsWrite cb cells next ud'

/-- A buffer with records, room for `maxn` of them, and data behind it. -/
def Layout (buffer : List UInt8) (maxn : ℕ) (rs : List ℕ)
    (tail : List UInt8) : Prop :=
  ∃ head gap : List UInt8, head.length = 2 ∧
    gap.length + rs.length * 2 = maxn * 2 ∧
    buffer = head ++ recordsCode rs ++ (gap ++ tail)

variable {buffer tail : List UInt8} {maxn : ℕ} {rs : List ℕ}

theorem Layout.length (h : Layout buffer maxn rs tail) :
    buffer.length = 2 + maxn * 2 + tail.length := by
  obtain ⟨head, gap, hhead, hgap, rfl⟩ := h
  simp only [List.length_append, length_recordsCode]
  omega

/-- The data starts behind `maxn` records. -/
theorem Layout.split
    (h : Layout buffer maxn rs tail) {n : ℕ} (hn : n = 2 + maxn * 2) :
    ∃ front : List UInt8, front.length = n ∧ buffer = front ++ tail ∧
      ∀ tail', Layout (front ++ tail') maxn rs tail' := by
  obtain ⟨head, gap, hhead, hgap, rfl⟩ := h
  refine ⟨head ++ recordsCode rs ++ gap, ?_, ?_, fun tail' => ?_⟩
  · simp only [List.length_append, length_recordsCode]
    omega
  · exact (List.append_assoc _ _ _).symm
  · exact ⟨head, gap, hhead, hgap, List.append_assoc _ _ _⟩

/-- A record is written into the gap. -/
theorem Layout.push
    (h : Layout buffer maxn rs tail) (hlt : rs.length < maxn) (v : ℕ) :
    Layout (store buffer (sizeofHeader + sizeofField * rs.length)
      (bytes 2 v)) maxn (rs ++ [v]) tail := by
  obtain ⟨head, gap, hhead, hgap, rfl⟩ := h
  obtain ⟨old, gap', hold, hcells⟩ :=
    @exists_cells _ gap 2 [] (by omega)
  rw [List.nil_append, List.nil_append] at hcells
  subst hcells
  refine ⟨head, gap', hhead, ?_, ?_⟩
  · rw [List.length_append, List.length_singleton]
    rw [List.length_append] at hgap
    omega
  · have hfront : sizeofHeader + sizeofField * rs.length =
        (head ++ recordsCode rs).length := by
      rw [List.length_append, length_recordsCode, hhead, sizeofHeader,
        sizeofField, Nat.mul_comm]
    rw [hfront, List.append_assoc old,
      store_append (by rw [length_bytes, hold]), recordsCode_append]
    simp only [List.append_assoc]
    rfl

/-- The record of skipped tags is written into the gap. -/
theorem Layout.pushSkip
    (h : Layout buffer maxn rs tail) {tag : ℤ}
    (hlt : rs.length + (skip tag).length ≤ maxn) (htag : tag < tagLimit) :
    ∃ buffer', putSkip buffer rs.length tag =
        some (buffer', rs.length + (skip tag).length) ∧
      Layout buffer' maxn (rs ++ skip tag) tail := by
  unfold putSkip
  unfold skip at hlt ⊢
  have hlimit : tagLimit = 0x7fff := rfl
  split at hlt
  · rename_i hpos
    rw [if_pos hpos, if_pos hpos]
    dsimp only
    rw [if_neg (by omega)]
    rw [List.length_singleton] at hlt
    exact ⟨_, rfl, h.push hlt _⟩
  · rename_i hneg
    rw [if_neg hneg, if_neg hneg, List.append_nil]
    exact ⟨buffer, rfl, h⟩

/-- The frame after the fields with the records and the data so far. -/
structure Filled
    (frame : Frame) (maxn : ℕ) (last : ℤ) (rs : List ℕ)
    (code rest : List UInt8) : Prop where
  layout : Layout frame.buffer maxn rs (code ++ rest)
  data : frame.data = 2 + maxn * 2 + code.length
  index : frame.index = rs.length
  lasttag : frame.lasttag = last

/-- The block at `data` is the rest of the buffer. -/
theorem Filled.drop
    {frame : Frame} {last : ℤ} {code rest : List UInt8}
    (h : Filled frame maxn last rs code rest) :
    frame.buffer.drop frame.data = rest := by
  obtain ⟨front, hfront, hbuffer, -⟩ := h.layout.split rfl
  rw [hbuffer, ← List.append_assoc, h.data]
  exact List.drop_left' (by rw [List.length_append, hfront])

/-- The records and the data of one field. -/
theorem putRecord_spec
    {frame : Frame} {last : ℤ} {code rest rest' : List UInt8} {f : Field}
    {cell : Cell} (h : Filled frame maxn last rs code rest)
    (hroom : cell.sz ≠ 0 →
      rs.length + (skip (f.tag - last - 1)).length < maxn)
    (htag : f.tag < tagLimit) (hlast : -1 ≤ last) :
    ∃ frame', putRecord f cell.value cell.sz (cell.code ++ rest') frame =
        some frame' ∧
      Filled frame' maxn (if cell.sz = 0 then last else f.tag)
        (rs ++ records last [(f, cell)]) (code ++ cell.code) rest' := by
  obtain ⟨front, hfront, hbuffer, hlayout⟩ := h.layout.split rfl
  have htake : frame.buffer.take frame.data = front ++ code := by
    rw [hbuffer, ← List.append_assoc, h.data]
    exact List.take_left' (by rw [List.length_append, hfront])
  have hnew : front ++ code ++ (cell.code ++ rest') =
      front ++ (code ++ cell.code ++ rest') := by
    simp only [List.append_assoc]
  unfold putRecord
  dsimp only
  rw [htake, hnew, records]
  have hfilled := hlayout (code ++ cell.code ++ rest')
  split
  · rename_i hzero
    have hcode : cell.code = [] := by
      cases cell with
      | absent | inline u32 => rfl
      | data payload => exact absurd hzero (Nat.succ_ne_zero _)
    rw [records, List.append_nil]
    refine ⟨_, rfl, hfilled, ?_, h.index, h.lasttag⟩
    · rw [hcode, List.append_nil]
      exact h.data
  · rename_i hsz
    obtain ⟨buffer', hskip, hpushed⟩ := @Layout.pushSkip _ _ _ _ hfilled
      (f.tag - last - 1) (Nat.le_of_lt (hroom hsz)) (by omega)
    rw [h.index, h.lasttag, hskip]
    refine ⟨_, rfl, ?_, ?_, ?_, rfl⟩
    · have hpush := hpushed.push
        (by rw [List.length_append]; exact hroom hsz) cell.value
      rw [List.length_append, List.append_assoc] at hpush
      exact hpush
    · dsimp only
      cases cell with
      | absent => exact absurd rfl hsz
      | inline u32 =>
          rw [Cell.value, if_neg (by omega), h.data, Cell.code,
            List.append_nil]
      | data payload =>
          rw [Cell.value, if_pos (Eq.refl 0), h.data, Cell.sz, Cell.code,
            List.length_append, length_objectCode]
          omega
    · rw [records, List.length_append, List.length_append,
        List.length_singleton]
      exact Nat.add_assoc _ _ _

theorem records_append
    (last : ℤ) (f : Field) (cell : Cell) (cells : List (Field × Cell)) :
    records last ((f, cell) :: cells) = records last [(f, cell)] ++
      records (if cell.sz = 0 then last else f.tag) cells := by
  rw [records, records]
  split
  · rfl
  · rw [records, List.append_assoc]
    rfl

/-- The loop writes the records and the data of the fields.  The records left
for them are counted from the last field, whose record may have been spared;
then one more is left. -/
theorem encodeFields_spec
    {cells : List (Field × Cell)} {last before : ℤ} {ud ud' : σ}
    (hcells : FieldsWrite cb cells ud ud') (hascending : Ascending before cells)
    (hlast : -1 ≤ last) (hbefore : last ≤ before) (code : List UInt8)
    (hslots : rs.length + (if last = before then 0 else 1) +
      slots before (cells.map (·.1)) ≤ maxn) :
    ∃ need, ∀ frame rest, Filled frame maxn last rs code rest →
      encodeFields cb (cells.map (·.1)) frame ud = .ok .fail ∧
          rest.length < need ∨
        ∃ frame' rest', encodeFields cb (cells.map (·.1)) frame ud =
            .ok (.next frame' ud') ∧
          (∃ last', Filled frame' maxn last' (rs ++ records last cells)
            (code ++ cellsCode cells) rest') ∧
          (cellsCode cells).length + rest'.length = rest.length := by
  induction cells generalizing last before ud rs code with
  | nil =>
      cases hcells
      refine ⟨0, fun frame rest hfilled => .inr ⟨frame, rest, rfl, ?_, ?_⟩⟩
      · refine ⟨last, ?_⟩
        rw [records, List.append_nil, cellsCode, List.flatMap_nil,
          List.append_nil]
        exact hfilled
      · exact Nat.zero_add _
  | cons p cells ih =>
      obtain ⟨f, cell⟩ := p
      obtain ⟨next, ⟨room, hroom⟩, hcells⟩ := hcells
      obtain ⟨hlt, htag, hascending⟩ := hascending
      rw [List.map_cons, slots] at hslots
      dsimp only at hslots
      have hskip : (skip (f.tag - last - 1)).length =
          if (f.tag : ℤ) > last + 1 then 1 else 0 := by
        unfold skip
        split
        · rw [if_pos (by omega), List.length_singleton]
        · rw [if_neg (by omega), List.length_nil]
      have hrecord : (records last [(f, cell)]).length =
          if cell.sz = 0 then 0 else (skip (f.tag - last - 1)).length + 1 := by
        rw [records]
        split
        · rfl
        · rw [records, List.length_append, List.length_singleton]
      have hlast' : -1 ≤ (if cell.sz = 0 then last else (f.tag : ℤ)) := by
        split
        all_goals omega
      have hle' : (if cell.sz = 0 then last else (f.tag : ℤ)) ≤ f.tag := by
        split
        all_goals omega
      have hcount : (rs ++ records last [(f, cell)]).length +
          (if (if cell.sz = 0 then last else (f.tag : ℤ)) = f.tag then 0
            else 1) + slots f.tag (cells.map (·.1)) ≤ maxn := by
        rw [List.length_append, hrecord, hskip]
        split_ifs at hslots ⊢ <;> omega
      obtain ⟨need, hneed⟩ := ih hcells hascending hlast' hle'
        (code ++ cell.code) hcount
      refine ⟨room + cell.code.length + need, fun frame rest hfilled => ?_⟩
      rw [List.map_cons, encodeFields, hfilled.drop]
      rcases hroom rest with ⟨hfail, hsmall⟩ | ⟨data, hnext, hlength, rest', rfl⟩
      · rw [hfail]
        exact .inl ⟨rfl, by omega⟩
      · rw [hnext]
        obtain ⟨frame', hput, hfilled'⟩ := @putRecord_spec _ _ _ _ _ _ rest' f
          cell hfilled (by
            intro hsz
            rw [hskip]
            split_ifs at hslots ⊢ <;> omega) htag hlast
        dsimp only [Except.bind]
        rw [hput]
        dsimp only
        rw [List.length_append] at hlength
        rcases hneed frame' rest' hfilled' with
          ⟨hfail, hsmall⟩ | ⟨frame'', rest'', hnext', ⟨last', hfilled''⟩, hrest⟩
        · exact .inl ⟨hfail, by omega⟩
        · refine .inr ⟨frame'', rest'', hnext', ⟨last', ?_⟩, ?_⟩
          · rw [records_append, ← List.append_assoc, cellsCode_cons,
              ← List.append_assoc]
            exact hfilled''
          · rw [cellsCode_cons, List.length_append]
            omega

/-- The data is moved to the records. -/
theorem moveData
    {code rest : List UInt8} (h : Layout buffer maxn rs (code ++ rest)) :
    ∃ buffer', (if rs.length ≠ maxn then
        store (store buffer 0 (bytes 2 rs.length))
          (sizeofHeader + rs.length * sizeofField)
          (load (store buffer 0 (bytes 2 rs.length))
            (sizeofHeader + maxn * sizeofField) code.length)
        else store buffer 0 (bytes 2 rs.length)) = buffer' ∧
      Written buffer buffer'
        (bytes 2 rs.length ++ (recordsCode rs ++ code)) := by
  refine ⟨_, rfl, ?_⟩
  obtain ⟨head, gap, hhead, hgap, rfl⟩ := h
  have hheader : store (head ++ recordsCode rs ++ (gap ++ (code ++ rest))) 0
      (bytes 2 rs.length) =
      bytes 2 rs.length ++ recordsCode rs ++ (gap ++ (code ++ rest)) := by
    have hstore := @store_append _ head (bytes 2 rs.length)
      (by rw [length_bytes, hhead]) []
      (recordsCode rs ++ (gap ++ (code ++ rest)))
    rw [List.nil_append, List.nil_append, List.length_nil] at hstore
    rw [List.append_assoc, hstore, List.append_assoc]
  rw [hheader]
  split
  · have hfront : sizeofHeader + rs.length * sizeofField =
        (bytes 2 rs.length ++ recordsCode rs).length := by
      rw [List.length_append, length_recordsCode, length_bytes]
      rfl
    have hload : load (bytes 2 rs.length ++ recordsCode rs ++
        (gap ++ (code ++ rest))) (sizeofHeader + maxn * sizeofField)
        code.length = code := by
      have hload := load_append (bytes 2 rs.length ++ recordsCode rs ++ gap)
        code rest
      rw [List.append_assoc] at hload
      have hdata : sizeofHeader + maxn * sizeofField =
          (bytes 2 rs.length ++ recordsCode rs ++ gap).length := by
        simp only [List.length_append, length_recordsCode, length_bytes]
        unfold sizeofHeader sizeofField
        omega
      rw [hdata]
      exact hload
    rw [hload, hfront]
    obtain ⟨old, new, hold, hcells⟩ := @exists_cells _
      (gap ++ (code ++ rest)) code.length [] (by
        simp only [List.length_append]
        omega)
    rw [List.nil_append, List.nil_append] at hcells
    have hlength : (head ++ recordsCode rs ++ (gap ++ (code ++ rest))).length =
        (bytes 2 rs.length ++ recordsCode rs ++ (code ++ new)).length := by
      rw [hcells]
      simp only [List.length_append, length_bytes, hhead, hold]
    rw [hcells, store_append hold, ← hcells]
    exact ⟨hlength.symm, new, by simp only [List.append_assoc]⟩
  · rename_i hfull
    have hnil : gap = [] := List.eq_nil_of_length_eq_zero (by omega)
    subst hnil
    refine ⟨?_, rest, by simp only [List.append_assoc, List.nil_append]⟩
    simp only [List.length_append, length_bytes, hhead]

/-- A struct is written as the cells of its fields. -/
theorem writes_struct
    {st : SprotoType} {cells : List (Field × Cell)} {ud ud' : σ}
    (hloaded : st.Loaded) (hfields : cells.map (·.1) = st.f)
    (hcells : FieldsWrite cb cells ud ud') :
    Writes (fun buffer => sprotoEncode cb st buffer ud) (structCode cells)
      ud' := by
  have hslots : ([] : List ℕ).length +
      (if (-1 : ℤ) = -1 then 0 else 1) + slots (-1) (cells.map (·.1)) ≤
      st.maxn := by
    rw [hfields, ← hloaded.maxn, if_pos rfl]
    exact Nat.le_of_eq (Nat.zero_add _)
  obtain ⟨need, hneed⟩ := encodeFields_spec hcells
    (hloaded.ascending_cells hfields) (Int.le_refl _) (Int.le_refl _) []
    hslots
  refine ⟨sizeofHeader + st.maxn * sizeofField + need, fun buffer => ?_⟩
  unfold sprotoEncode
  dsimp only
  split
  · rename_i hsmall
    exact .inl ⟨rfl, by omega⟩
  · rename_i hroom
    obtain ⟨front, rest, hfront, hbuffer⟩ :=
      exists_cells [] (Nat.le_of_not_lt hroom)
    rw [List.nil_append, List.nil_append] at hbuffer
    subst hbuffer
    have hfilled : Filled ⟨front ++ rest,
        sizeofHeader + st.maxn * sizeofField, 0, -1⟩ st.maxn (-1) [] [] rest := by
      refine ⟨⟨front.take 2, front.drop 2, ?_, ?_, ?_⟩, rfl, rfl, rfl⟩
      · rw [List.length_take, hfront]
        unfold sizeofHeader
        omega
      · rw [List.length_drop, hfront]
        unfold sizeofHeader sizeofField
        rw [List.length_nil]
        omega
      · rw [recordsCode, List.flatMap_nil, List.append_nil, List.nil_append,
          ← List.append_assoc, List.take_append_drop]
    have htotal : (front ++ rest).length =
        sizeofHeader + st.maxn * sizeofField + rest.length := by
      rw [List.length_append, hfront]
    rw [← hfields]
    rcases hneed _ rest hfilled with
      ⟨hfail, hsmall⟩ | ⟨frame, rest', hnext, ⟨last, hend⟩, hrest⟩
    · rw [hfail]
      exact .inl ⟨rfl, by omega⟩
    · rw [hnext]
      rw [List.nil_append, List.nil_append] at hend
      obtain ⟨buffer', hmove, hwritten⟩ := moveData hend.layout
      refine .inr ⟨buffer', ?_, ?_, hwritten.2⟩
      · have hsize : frame.data - (sizeofHeader + st.maxn * sizeofField) =
            (cellsCode cells).length := by
          rw [hend.data]
          unfold sizeofHeader sizeofField
          omega
        have hcode : (structCode cells).length = sizeofHeader +
            (records (-1) cells).length * sizeofField +
            (cellsCode cells).length := by
          rw [structCode, List.length_append, List.length_append,
            length_recordsCode, length_bytes]
          exact (Nat.add_assoc _ _ _).symm
        dsimp only [Except.map]
        rw [hsize, hend.index, hmove, hcode]
      · rw [hwritten.1, hend.layout.length, htotal, List.length_append, hrest]
        rfl

end Encode

/-! ## Decoding -/

section Decode

variable {σ : Type*} {cb : Arg → σ → Except Failure (ℤ × σ)}

/-- The field is read from its cell. -/
def FieldReads (cb : Arg → σ → Except Failure (ℤ × σ)) (f : Field)
    (cell : Cell) (ud ud' : σ) : Prop :=
  ∀ rest, decodeField cb f cell.value (cell.code ++ rest) ud = .ok (some ud')

def FieldsRead (cb : Arg → σ → Except Failure (ℤ × σ)) :
    List (Field × Cell) → σ → σ → Prop
  | [], ud, ud' => ud = ud'
  | (f, cell) :: cells, ud, ud' =>
    (cell.sz = 0 ∧ FieldsRead cb cells ud ud') ∨
      cell.sz ≠ 0 ∧ ∃ next, FieldReads cb f cell ud next ∧
        FieldsRead cb cells next ud'

/-- A value in a record is less than 0x7fff. -/
def Cell.Small : Cell → Prop
  | inline u32 => u32 < 0x7fff
  | _ => True

variable {st : SprotoType}

/-- The record of skipped tags leads to the tag of the field. -/
theorem decodeFields_skip
    {last tag : ℤ} (hlt : last < tag) (hlast : -1 ≤ last)
    (htag : tag < tagLimit) (n : ℕ) (stream datastream : List UInt8) (ud : σ) :
    decodeFields cb st ((skip (tag - last - 1)).length + n)
      (recordsCode (skip (tag - last - 1)) ++ stream) datastream last ud =
      decodeFields cb st n stream datastream (tag - 1) ud := by
  have hlimit : tagLimit = 0x7fff := rfl
  unfold skip
  split
  · rename_i hpos
    obtain ⟨k, hk⟩ : ∃ k : ℕ, tag - last - 1 = k + 1 :=
      ⟨(tag - last - 2).toNat, by omega⟩
    have hvalue : ((tag - last - 1 - 1) * 2 + 1).toNat = k * 2 + 1 := by omega
    have hword : toword (recordsCode [k * 2 + 1] ++ stream) = k * 2 + 1 := by
      rw [recordsCode, List.flatMap_cons, List.flatMap_nil, List.append_nil]
      exact toword_bytes (by omega) stream
    have hdrop : (recordsCode [k * 2 + 1] ++ stream).drop sizeofField =
        stream :=
      List.drop_left' (length_recordsCode _)
    rw [hvalue, List.length_singleton, Nat.add_comm, decodeFields, hword,
      if_pos (by omega), hdrop]
    congr 1
    omega
  · rename_i hneg
    rw [List.length_nil, Nat.zero_add, recordsCode, List.flatMap_nil,
      List.nil_append]
    congr 1
    omega

/-- The loop reads the fields from their records and data. -/
theorem decodeFields_spec
    {cells : List (Field × Cell)} {last : ℤ} {ud ud' : σ}
    (hloaded : st.Loaded) (hmem : ∀ p ∈ cells, p.1 ∈ st.f ∧ p.2.Small)
    (hascending : Ascending last cells) (hlast : -1 ≤ last)
    (hcells : FieldsRead cb cells ud ud')
    (hsize : (cellsCode cells).length < 2 ^ 32) (more tail : List UInt8) :
    decodeFields cb st (records last cells).length
      (recordsCode (records last cells) ++ more) (cellsCode cells ++ tail)
      last ud = .ok (some (tail, ud')) := by
  induction cells generalizing last ud with
  | nil =>
      cases hcells
      rfl
  | cons p cells ih =>
      obtain ⟨f, cell⟩ := p
      obtain ⟨hlt, htag, hascending⟩ := hascending
      have hmem' : ∀ p ∈ cells, p.1 ∈ st.f ∧ p.2.Small := fun p hp =>
        hmem p (List.mem_cons_of_mem _ hp)
      obtain ⟨hf, hsmall⟩ := hmem (f, cell) List.mem_cons_self
      rw [cellsCode_cons, List.length_append] at hsize
      rw [records, cellsCode_cons, List.append_assoc]
      rcases hcells with ⟨hzero, hcells⟩ | ⟨hsz, next, hfield, hcells⟩
      · have hcode : cell.code = [] := by
          cases cell with
          | absent | inline u32 => rfl
          | data payload => exact absurd hzero (Nat.succ_ne_zero _)
        rw [if_pos hzero, hcode, List.nil_append]
        exact ih hmem' (hascending.mono (by omega)) hlast hcells (by omega)
      · rw [if_neg hsz, List.length_append, List.length_cons,
          recordsCode_append, List.append_assoc,
          decodeFields_skip hlt hlast (by omega)]
        have hvalue : cell.value < 2 ^ 16 ∧ cell.value % 2 = 0 := by
          cases cell with
          | absent => exact absurd rfl hsz
          | inline u32 =>
              have hu32 : u32 < 0x7fff := hsmall
              rw [Cell.value]
              omega
          | data payload => exact ⟨Nat.two_pow_pos 16, rfl⟩
        have hword : toword (recordsCode (cell.value ::
            records f.tag cells) ++ more) = cell.value := by
          rw [recordsCode, List.flatMap_cons, List.append_assoc]
          exact toword_bytes hvalue.1 _
        have hstream : (recordsCode (cell.value :: records f.tag cells) ++
            more).drop sizeofField =
            recordsCode (records f.tag cells) ++ more := by
          rw [recordsCode, List.flatMap_cons, List.append_assoc]
          exact List.drop_left' (length_bytes 2 _)
        have hfind : findtag st (f.tag - 1 + 1) = some f := by
          rw [Int.sub_add_cancel]
          exact findtag_eq hloaded hf
        have hread := ih hmem' hascending (by omega) hcells (by omega)
        rw [decodeFields, hword, hstream, if_neg (by omega), hfind,
          Int.sub_add_cancel]
        dsimp only
        rw [hfield]
        dsimp only [Except.bind]
        cases cell with
        | absent => exact absurd rfl hsz
        | inline u32 =>
            have hne : ¬ (Cell.inline u32).value = 0 := by
              rw [Cell.value]
              omega
            rw [if_neg fun h => hne h.1, if_neg hne, List.drop_zero]
            exact hread
        | data payload =>
            rw [Cell.code, length_objectCode] at hsize
            have hcode : todword ((Cell.data payload).code ++
                (cellsCode cells ++ tail)) = payload.length := by
              rw [Cell.code, objectCode, List.append_assoc]
              refine (todword_bytes _ _).trans (Nat.mod_eq_of_lt ?_)
              unfold sizeofLength at hsize
              omega
            have hmod : (payload.length + sizeofLength) % 2 ^ 32 =
                (objectCode payload).length := by
              rw [length_objectCode, Nat.add_comm]
              exact Nat.mod_eq_of_lt (by omega)
            have hvalue : (Cell.data payload).value = 0 := rfl
            rw [hcode, hvalue, if_pos (Eq.refl 0), hmod, Cell.code,
              List.drop_left, if_neg]
            · exact hread
            · rintro ⟨-, hshort⟩
              rw [List.length_append, length_objectCode] at hshort
              omega

/-- A struct is read from the cells of its fields. -/
theorem reads_struct
    {cells : List (Field × Cell)} {ud ud' : σ} (hloaded : st.Loaded)
    (hfields : cells.map (·.1) = st.f) (hsmall : ∀ p ∈ cells, p.2.Small)
    (hcells : FieldsRead cb cells ud ud')
    (hsize : (structCode cells).length < 2 ^ 32) :
    sprotoDecode cb st (structCode cells) ud =
      .ok (some ((structCode cells).length, ud')) := by
  have hascending := hloaded.ascending_cells hfields
  have hcount := length_records_lt hascending
  have hlength : (structCode cells).length = 2 +
      ((records (-1) cells).length * 2 + (cellsCode cells).length) := by
    rw [structCode, List.length_append, List.length_append,
      length_recordsCode, length_bytes]
  have hword : toword (structCode cells) = (records (-1) cells).length :=
    toword_bytes hcount _
  have hdrop : (structCode cells).drop sizeofHeader =
      recordsCode (records (-1) cells) ++ cellsCode cells :=
    List.drop_left' (length_bytes 2 _)
  have hdata : (recordsCode (records (-1) cells) ++ cellsCode cells).drop
      ((records (-1) cells).length * sizeofField) = cellsCode cells :=
    List.drop_left' (length_recordsCode _)
  have hread := decodeFields_spec hloaded
    (fun p hp => ⟨hfields ▸ List.mem_map_of_mem hp, hsmall p hp⟩)
    hascending (Int.le_refl _) hcells (by omega) (cellsCode cells) []
  rw [List.append_nil] at hread
  unfold sprotoDecode
  rw [if_neg (by unfold sizeofHeader; omega), hword, hdrop]
  dsimp only
  rw [if_neg (by
    rw [List.length_append, length_recordsCode]
    unfold sizeofField
    omega), hdata, hread]
  rfl

end Decode

end SkynetServer.Sproto
