import SkynetServer.Seri.Unpack
import SkynetServer.Support.Integers

/-!
# The bytes of blocks and atoms

The buffer holds the bytes that were pushed, wherever the blocks end, and
each value that is not a table is read back from its bytes.  A string of 2^31
bytes or more is not: its length is cast to an `int`.
-/

namespace SkynetServer.Seri

open LittleEndian Integers

/-! ## Blocks -/

namespace WriteBlock

/-- The bytes that were pushed. -/
def contents (b : WriteBlock) : List UInt8 := b.blocks.flatten ++ b.current

/-- All blocks but the current one are full. -/
structure Valid (b : WriteBlock) : Prop where
  full : ∀ block ∈ b.blocks, block.length = blockSize
  current : b.current.length ≤ blockSize
  len : b.len = b.contents.length

theorem valid_wbInit : wbInit.Valid :=
  ⟨fun _ h => (List.not_mem_nil h).elim, Nat.zero_le _, rfl⟩

variable {b : WriteBlock} {buffer : List UInt8}

theorem contents_copy : (b.copy buffer).contents = b.contents ++ buffer :=
  (List.append_assoc _ _ _).symm

theorem Valid.copy
    (h : b.Valid) (hroom : b.current.length + buffer.length ≤ blockSize) :
    (b.copy buffer).Valid := by
  refine ⟨h.full, ?_, ?_⟩
  · rw [WriteBlock.copy, List.length_append]
    exact hroom
  · rw [contents_copy, List.length_append, ← h.len]
    rfl

theorem contents_alloc : b.alloc.contents = b.contents := by
  rw [contents, contents, alloc, List.flatten_append, List.flatten_singleton,
    List.append_nil]

theorem Valid.alloc (h : b.Valid) (hfull : b.current.length = blockSize) :
    b.alloc.Valid := by
  refine ⟨fun block hblock => ?_, Nat.zero_le _, ?_⟩
  · rcases List.mem_append.1 hblock with hblock | hblock
    · exact h.full block hblock
    · rw [List.mem_singleton.1 hblock]
      exact hfull
  · rw [contents_alloc]
    exact h.len

/-- What the pushes of a function of the source do. -/
def Pushes (b : WriteBlock) (bs : List UInt8) (b' : WriteBlock) : Prop :=
  b'.Valid ∧ b'.contents = b.contents ++ bs

theorem pushes_again
    {n : ℕ} (h : b.Valid) (hfull : b.current.length = blockSize)
    (hn : buffer.length < n) : Pushes b buffer (again n b buffer) := by
  induction n generalizing b buffer with
  | zero => exact absurd hn (Nat.not_lt_zero _)
  | succ n ih =>
      have halloc := h.alloc hfull
      rw [again]
      split
      · rename_i hle
        refine ⟨halloc.copy ?_, ?_⟩
        · exact Nat.le_trans (Nat.le_of_eq (Nat.zero_add _)) hle
        · rw [contents_copy, contents_alloc]
      · rename_i hlong
        have htake : (buffer.take blockSize).length = blockSize :=
          List.length_take_of_le (Nat.le_of_not_le hlong)
        have hblock : 0 < blockSize := by decide
        have hcopy : (b.alloc.copy (buffer.take blockSize)).Valid :=
          halloc.copy (Nat.le_of_eq ((Nat.zero_add _).trans htake))
        have hdrop : (buffer.drop blockSize).length < n := by
          rw [List.length_drop]
          omega
        obtain ⟨hvalid, hcontents⟩ := ih hcopy htake hdrop
        refine ⟨hvalid, ?_⟩
        rw [hcontents, contents_copy, contents_alloc, List.append_assoc,
          List.take_append_drop]

/-- `wb_push` appends the bytes, wherever the blocks end. -/
theorem pushes_push (h : b.Valid) (buffer : List UInt8) :
    Pushes b buffer (b.push buffer) := by
  have hcurrent := h.current
  unfold push
  split
  · rename_i hfull
    exact pushes_again h hfull (Nat.lt_succ_self _)
  · split
    · rename_i hroom
      exact ⟨h.copy hroom, contents_copy⟩
    · rename_i hfull hlong
      have hlength : (buffer.take (blockSize - b.current.length)).length =
          blockSize - b.current.length :=
        List.length_take_of_le (by omega)
      have hcopy : (b.copy (buffer.take
          (blockSize - b.current.length))).Valid := h.copy (by omega)
      have hfull' : (b.copy (buffer.take
          (blockSize - b.current.length))).current.length = blockSize := by
        rw [copy, List.length_append]
        omega
      have hdrop : (buffer.drop (blockSize - b.current.length)).length <
          buffer.length + 1 := by
        rw [List.length_drop]
        omega
      obtain ⟨hvalid, hcontents⟩ := pushes_again hcopy hfull' hdrop
      refine ⟨hvalid, ?_⟩
      rw [hcontents, contents_copy, List.append_assoc, List.take_append_drop]

theorem Pushes.push
    {b' : WriteBlock} {bs : List UInt8} (h : Pushes b bs b')
    (cs : List UInt8) : Pushes b (bs ++ cs) (b'.push cs) := by
  obtain ⟨hvalid, hcontents⟩ : Pushes b' cs (b'.push cs) :=
    pushes_push h.1 cs
  refine ⟨hvalid, ?_⟩
  rw [hcontents, h.2, List.append_assoc]

end WriteBlock

open WriteBlock

/-- `seri` copies what was pushed. -/
theorem seri_eq {wb : WriteBlock} (h : wb.Valid) : seri wb = wb.contents := by
  have hloop : ∀ blocks : List (List UInt8),
      (∀ block ∈ blocks, block.length = blockSize) →
      seriLoop (blocks ++ [wb.current])
        (blocks.flatten ++ wb.current).length =
        blocks.flatten ++ wb.current := by
    intro blocks hblocks
    induction blocks with
    | nil =>
        rw [List.flatten_nil, List.nil_append, List.nil_append, seriLoop]
        split
        · have hcurrent := h.current
          rw [seriLoop, List.append_nil, List.take_of_length_le hcurrent]
        · exact List.take_length
    | cons block blocks ih =>
        have hblock := hblocks block List.mem_cons_self
        have hrest := ih fun block' h' =>
          hblocks block' (List.mem_cons_of_mem _ h')
        have hlength : (((block :: blocks).flatten) ++ wb.current).length =
            blockSize + (blocks.flatten ++ wb.current).length := by
          rw [List.flatten_cons, List.append_assoc, List.length_append, hblock]
        rw [hlength, List.cons_append, seriLoop, if_pos (Nat.le_add_right _ _),
          Nat.add_sub_cancel_left, hrest, List.take_of_length_le (Nat.le_of_eq hblock),
          List.flatten_cons, List.append_assoc]
  rw [seri, h.len]
  exact hloop wb.blocks h.full

/-! ## Atoms -/

/-- The function pushes the bytes. -/
def Packs (pack : WriteBlock → WriteBlock) (bs : List UInt8) : Prop :=
  ∀ wb : WriteBlock, wb.Valid → Pushes wb bs (pack wb)

section Atoms

theorem packs_push (bs : List UInt8) : Packs (fun wb => wb.push bs) bs :=
  fun _ h => pushes_push h bs

theorem combineType_cookie :
    ∀ t < 8, ∀ v < 32, (combineType t (v : ℕ)).toNat &&& 7 = t ∧
      (combineType t (v : ℕ)).toNat >>> 3 = v := by
  decide +kernel

/-- A number that is read from its bytes. -/
theorem read_number {w n : ℕ} (h : n < 256 ^ w) (rest : List UInt8) :
    ∃ pn, read w (bytes w n ++ rest) = some (pn, rest) ∧ number pn = n :=
  ⟨bytes w n, read_bytes w n rest, number_bytes_of_lt h⟩

theorem packs_number
    {pack : WriteBlock → WriteBlock} {t : UInt8} {w n : ℕ}
    (h : ∀ wb, pack wb = (wb.push [t]).push (bytes w n)) :
    Packs pack (t :: bytes w n) := by
  intro wb hwb
  rw [h]
  exact (pushes_push hwb _).push (bytes w n)

/-- A cookie and the bytes behind it are those of an integer. -/
structure IntegerCode (x : BitVec 64) (cookie : ℕ) (cs : List UInt8) :
    Prop where
  lt : cookie < 32
  ne : cookie ≠ numberReal
  packs : Packs (fun wb => wbInteger wb x)
    (combineType typeNumber (cookie : ℕ) :: cs)
  get : ∀ rest, getInteger cookie (cs ++ rest) = some (x, rest)

theorem integerCode_dword
    {x : BitVec 64} (hdword : x = (x.setWidth 32).signExtend 64)
    (hpack : ∀ wb, wbInteger wb x =
      (wb.push [combineType typeNumber numberDword]).push
        (bytes 4 (x.setWidth 32).toNat)) :
    IntegerCode x numberDword (bytes 4 (x.setWidth 32).toNat) := by
  refine ⟨by decide, by decide, packs_number hpack, fun rest => ?_⟩
  have hlt : (x.setWidth 32).toNat < 256 ^ 4 := (x.setWidth 32).isLt
  obtain ⟨pn, hread, hpn⟩ := read_number hlt rest
  calc getInteger numberDword (bytes 4 (x.setWidth 32).toNat ++ rest)
      = (read 4 (bytes 4 (x.setWidth 32).toNat ++ rest)).bind fun p =>
          some ((BitVec.ofNat 32 (number p.1)).signExtend 64, p.2) := rfl
    _ = some ((x.setWidth 32).signExtend 64, rest) := by
        simp only [hread, Option.bind_some, hpn, BitVec.ofNat_toNat,
          BitVec.setWidth_eq]
    _ = some (x, rest) := by rw [← hdword]

/-- The cookies whose bytes are those of an unsigned number. -/
theorem integerCode_unsigned
    {x : BitVec 64} {cookie w : ℕ} (hcookie : cookie < 32)
    (hne : cookie ≠ numberReal)
    (hget : ∀ rb, getInteger cookie rb = (read w rb).bind fun p =>
      some (BitVec.ofNat 64 (number p.1), p.2))
    (hlt : x.toNat < 256 ^ w)
    (hpack : ∀ wb, wbInteger wb x =
      (wb.push [combineType typeNumber (cookie : ℕ)]).push
        (bytes w x.toNat)) :
    IntegerCode x cookie (bytes w x.toNat) := by
  refine ⟨hcookie, hne, packs_number hpack, fun rest => ?_⟩
  obtain ⟨pn, hread, hpn⟩ := read_number hlt rest
  rw [hget]
  simp only [hread, Option.bind_some, hpn, BitVec.ofNat_toNat,
    BitVec.setWidth_eq]

/-- An integer is written behind its cookie and read back. -/
theorem exists_integerCode (x : BitVec 64) :
    ∃ cookie cs, IntegerCode x cookie cs := by
  by_cases hzero : x = 0
  · refine ⟨numberZero, [], by decide, by decide, fun wb hwb => ?_,
      fun rest => ?_⟩
    · dsimp only
      rw [wbInteger, if_pos hzero]
      exact pushes_push hwb _
    · rw [hzero]
      rfl
  by_cases hqword : x ≠ (x.setWidth 32).signExtend 64
  · refine ⟨numberQword, _, integerCode_unsigned (by decide) (by decide)
      (fun _ => rfl) x.isLt fun wb => ?_⟩
    rw [wbInteger, if_neg hzero, if_pos hqword]
  by_cases hneg : x.toInt < 0
  · refine ⟨numberDword, _, integerCode_dword (not_not.1 hqword) fun wb => ?_⟩
    rw [wbInteger, if_neg hzero, if_neg hqword, if_pos hneg]
  have hnat := toNat_of_toInt_nonneg (Int.not_lt.mp hneg)
  by_cases hbyte : x.toInt < 0x100
  · refine ⟨numberByte, _, integerCode_unsigned (by decide) (by decide)
      (fun _ => rfl) (w := 1) (by omega) fun wb => ?_⟩
    rw [wbInteger, if_neg hzero, if_neg hqword, if_neg hneg, if_pos hbyte]
  by_cases hword : x.toInt < 0x10000
  · refine ⟨numberWord, _, integerCode_unsigned (by decide) (by decide)
      (fun _ => rfl) (w := 2) (by omega) fun wb => ?_⟩
    rw [wbInteger, if_neg hzero, if_neg hqword, if_neg hneg, if_neg hbyte,
      if_pos hword]
  · refine ⟨numberDword, _, integerCode_dword (not_not.1 hqword) fun wb => ?_⟩
    rw [wbInteger, if_neg hzero, if_neg hqword, if_neg hneg, if_neg hbyte,
      if_neg hword]

theorem toInt_of_lt {n : ℕ} (h : n < 2 ^ 31) : toInt n = n :=
  toInt_ofNat_of_lt (by omega)

/-- A value is read back from its bytes, whatever follows them. -/
def ReadsBack (v : Value) (t : UInt8) (cs : List UInt8) : Prop :=
  ∀ one rest, pushValue one (t.toNat &&& 7) (t.toNat >>> 3) (cs ++ rest) =
    some (v, rest)

/-- What has to be read behind a type and a cookie. -/
theorem readsBack_combineType
    {v : Value} {type cookie : ℕ} {cs : List UInt8} (htype : type < 8)
    (hcookie : cookie < 32)
    (h : ∀ one rest, pushValue one type cookie (cs ++ rest) =
      some (v, rest)) :
    ReadsBack v (combineType type (cookie : ℕ)) cs := by
  obtain ⟨ht, hc⟩ := combineType_cookie type htype cookie hcookie
  intro one rest
  rw [ht, hc]
  exact h one rest

theorem getQword_bytes (x : BitVec 64) (rest : List UInt8) :
    getQword (bytes 8 x.toNat ++ rest) = some (x, rest) := by
  have hlt : x.toNat < 256 ^ 8 := x.isLt
  obtain ⟨pn, hread, hpn⟩ := read_number hlt rest
  simp only [getQword, hread, Option.bind_eq_bind, Option.bind_some, hpn,
    BitVec.ofNat_toNat, BitVec.setWidth_eq]
  rfl

variable {str : List UInt8}

theorem getBuffer_append
    (h : str.length < 2 ^ 31) (rest : List UInt8) :
    getBuffer (str ++ rest) str.length =
      some (.atom (.string str), rest) := by
  simp only [getBuffer, if_pos h, read_append, Option.bind_eq_bind,
    Option.bind_some]
  rfl

/-- A long string with its length in `w` bytes. -/
theorem packs_long
    {pack : WriteBlock → WriteBlock} {t : UInt8} {w n : ℕ}
    (h : ∀ wb, pack wb = ((wb.push [t]).push (bytes w n)).push str) :
    Packs pack (t :: (bytes w n ++ str)) := by
  intro wb hwb
  rw [h]
  have hpush := ((pushes_push hwb [t]).push (bytes w n)).push str
  rwa [List.append_assoc] at hpush

theorem string_code (h : str.length < 2 ^ 31) :
    ∃ t cs, Packs (fun wb => wbString wb str) (t :: cs) ∧
      ReadsBack (.atom (.string str)) t cs := by
  have hlen := toInt_of_lt h
  have htake : str.take (toInt str.length).toNat = str := by
    rw [hlen]
    exact List.take_length
  by_cases hshort : str.length < 32
  · refine ⟨combineType typeShortString (str.length : ℕ), str,
      fun wb hwb => ?_, readsBack_combineType (by decide) hshort ?_⟩
    · dsimp only
      rw [wbString]
      dsimp only
      rw [htake, hlen, if_pos (by exact_mod_cast hshort)]
      split
      · exact (pushes_push hwb _).push str
      · rename_i hempty
        have hnil : str = [] := by
          apply List.eq_nil_of_length_eq_zero
          omega
        subst hnil
        exact pushes_push hwb _
    · intro one rest
      exact getBuffer_append h rest
  by_cases hword : str.length < 0x10000
  · refine ⟨combineType typeLongString (2 : ℕ), bytes 2 str.length ++ str,
      packs_long fun wb => ?_, readsBack_combineType (by decide) (by decide) ?_⟩
    · rw [wbString]
      dsimp only
      rw [htake, hlen, if_neg (by exact_mod_cast hshort), if_pos (by omega)]
      rfl
    · intro one rest
      have hlt : str.length < 256 ^ 2 := hword
      obtain ⟨plen, hread, hplen⟩ := read_number hlt (str ++ rest)
      rw [List.append_assoc]
      calc pushValue one typeLongString 2 (bytes 2 str.length ++ (str ++ rest))
          = (read 2 (bytes 2 str.length ++ (str ++ rest))).bind fun p =>
              getBuffer p.2 (number p.1) := rfl
        _ = some (.atom (.string str), rest) := by
            simp only [hread, Option.bind_some, hplen]
            exact getBuffer_append h rest
  · refine ⟨combineType typeLongString (4 : ℕ), bytes 4 str.length ++ str,
      packs_long fun wb => ?_, readsBack_combineType (by decide) (by decide) ?_⟩
    · rw [wbString]
      dsimp only
      rw [htake, hlen, if_neg (by exact_mod_cast hshort), if_neg (by omega)]
      rfl
    · intro one rest
      have hlt : str.length < 256 ^ 4 := by omega
      obtain ⟨plen, hread, hplen⟩ := read_number hlt (str ++ rest)
      rw [List.append_assoc]
      calc pushValue one typeLongString 4 (bytes 4 str.length ++ (str ++ rest))
          = (read 4 (bytes 4 str.length ++ (str ++ rest))).bind fun p =>
              getBuffer p.2 (number p.1) := rfl
        _ = some (.atom (.string str), rest) := by
            simp only [hread, Option.bind_some, hplen]
            exact getBuffer_append h rest

/-- The casts to `int` keep the atom. -/
def Atom.Fits : Atom → Prop
  | .string str => str.length < 2 ^ 31
  | _ => True

/-- An atom is written to its bytes and read back. -/
theorem atom_code {a : Atom} (h : a.Fits) :
    ∃ t cs, Packs (fun wb => packAtom wb a) (t :: cs) ∧
      ReadsBack (.atom a) t cs := by
  cases a with
  | nil =>
      have hread : ∀ one rest, pushValue one typeNil 0 ([] ++ rest) =
          some (.atom .nil, rest) := fun _ _ => rfl
      exact ⟨_, [], packs_push _,
        readsBack_combineType (by decide) (by decide) hread⟩
  | boolean b =>
      have hread : ∀ one rest, pushValue one typeBoolean (if b then 1 else 0)
          ([] ++ rest) = some (.atom (.boolean b), rest) := by
        cases b <;> exact fun _ _ => rfl
      have hcookie : (if b then 1 else 0) < 32 := by cases b <;> decide
      refine ⟨_, [], ?_, readsBack_combineType (by decide) hcookie hread⟩
      cases b <;> exact packs_push _
  | integer x =>
      obtain ⟨cookie, cs, hcode⟩ := exists_integerCode x
      refine ⟨_, cs, hcode.packs,
        readsBack_combineType (by decide) hcode.lt fun one rest => ?_⟩
      calc pushValue one typeNumber cookie (cs ++ rest)
          = (getInteger cookie (cs ++ rest)).bind fun p =>
              some (.atom (.integer p.1), p.2) := if_neg hcode.ne
        _ = some (.atom (.integer x), rest) := by
            rw [hcode.get]
            rfl
  | real bits =>
      refine ⟨_, _, packs_number fun _ => rfl, readsBack_combineType
        (by decide) (by decide) fun one rest => ?_⟩
      calc pushValue one typeNumber numberReal (bytes 8 bits.toNat ++ rest)
          = (getQword (bytes 8 bits.toNat ++ rest)).bind fun p =>
              some (.atom (.real p.1), p.2) := rfl
        _ = some (.atom (.real bits), rest) := by
            rw [getQword_bytes]
            rfl
  | string str => exact string_code h
  | lightuserdata p =>
      have hread : ∀ one rest, pushValue one typeUserdata 0
          (bytes 8 p.toNat ++ rest) = some (.atom (.lightuserdata p), rest) := by
        intro one rest
        calc pushValue one typeUserdata 0 (bytes 8 p.toNat ++ rest)
            = (getQword (bytes 8 p.toNat ++ rest)).bind fun p =>
                some (.atom (.lightuserdata p.1), p.2) := rfl
          _ = some (.atom (.lightuserdata p), rest) := by
              rw [getQword_bytes]
              rfl
      exact ⟨_, _, packs_number fun _ => rfl,
        readsBack_combineType (by decide) (by decide) hread⟩

end Atoms

end SkynetServer.Seri
