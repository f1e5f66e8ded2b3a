import SkynetServer.Seri.Atoms
import SkynetServer.Seri.Tables

/-!
# What is packed is unpacked

Every list of values is read back from the buffer it was packed to, with each
table equal to the old one key by key.  The exceptions are a string of 2^31
bytes or more, and a table whose border is negative as an `int`.
-/

namespace SkynetServer.Seri

open LittleEndian Integers WriteBlock

/-! ## Tables -/

/-- A border of a table, one of which is what `lua_rawlen` returns. -/
def Border (es : Entries) (n : ℕ) : Prop :=
  (n = 0 ∨ Value.rawgeti es n ≠ .atom .nil) ∧
    Value.rawgeti es (n + 1) = .atom .nil

/-- The tables in a value have one entry for each key, no nil, and a
border. -/
inductive WellFormed : Value → Prop
  | atom (a : Atom) : WellFormed (.atom a)
  | table (border : ℕ) (es : Entries) :
      Border es border →
      (es.Pairwise fun e e' =>
        ∀ k, Value.isKey k e = true → Value.isKey k e' = false) →
      (∀ e ∈ es, e.2 ≠ .atom .nil ∧ ∀ k, e.1 = .atom k → k.key = some k) →
      (∀ e ∈ es, WellFormed e.1) → (∀ e ∈ es, WellFormed e.2) →
        WellFormed (.table border es)

/-- The values are nested less deep than `room`. -/
inductive Within : ℕ → Value → Prop
  | atom (room : ℕ) (a : Atom) : Within (room + 1) (.atom a)
  | table (room border : ℕ) (es : Entries) :
      (∀ e ∈ es, Within room e.1) → (∀ e ∈ es, Within room e.2) →
        Within (room + 1) (.table border es)

/-- The casts to `int` keep the lengths of the strings, and make no border
negative. -/
inductive Fits : Value → Prop
  | atom (a : Atom) : a.Fits → Fits (.atom a)
  | table (border : ℕ) (es : Entries) :
      0 ≤ toInt border → (∀ e ∈ es, Fits e.1) → (∀ e ∈ es, Fits e.2) →
        Fits (.table border es)

section Entries

variable {es : Entries} {k : Atom} {v : Value}

/-- An entry with a new key. -/
theorem rawset_append
    {key : Value} (hv : v ≠ .atom .nil)
    (hkey : ∀ k, key = .atom k →
      k.key = some k ∧ ∀ e ∈ es, Value.isKey k e = false) :
    Value.rawset es key v = some (es ++ [(key, v)]) := by
  cases key with
  | atom k =>
      obtain ⟨hk, hfresh⟩ := hkey k rfl
      rw [Value.rawset, hk, Option.map_some, setKey_append hv hfresh]
  | table border es' =>
      unfold Value.rawset
      dsimp only
      split
      · exact absurd rfl hv
      · rfl

/-- The value that the array part has at an index, if it is not nil. -/
def arrayEntry (i : ℕ) : Value → List (Value × Value)
  | .atom .nil => []
  | v => [(.atom (.integer (BitVec.ofNat 64 i)), v)]

/-- The entries of an array part that starts at an index. -/
def arrayEntries : ℕ → List Value → Entries
  | _, [] => []
  | i, v :: vs => arrayEntry i v ++ arrayEntries (i + 1) vs

theorem rawseti_eq
    {i : ℕ} (hfresh : ∀ e ∈ es,
      Value.isKey (.integer (BitVec.ofNat 64 i)) e = false) (v : Value) :
    Value.rawseti es i v = es ++ arrayEntry i v := by
  unfold arrayEntry
  split
  · rw [List.append_nil]
    exact setKey_nil hfresh
  · rename_i hv
    exact setKey_append (fun h => hv h) hfresh

theorem mem_arrayEntry {i : ℕ} {e : Value × Value} :
    e ∈ arrayEntry i v ↔ v ≠ .atom .nil ∧
      e = (.atom (.integer (BitVec.ofNat 64 i)), v) := by
  unfold arrayEntry
  split
  · exact ⟨fun h => (by cases h), fun h => absurd rfl h.1⟩
  · rename_i hv
    exact ⟨fun h => ⟨fun h => hv h, List.mem_singleton.1 h⟩,
      fun h => List.mem_singleton.2 h.2⟩

theorem mem_arrayEntries {i : ℕ} {vs : List Value} {e : Value × Value} :
    e ∈ arrayEntries i vs ↔ ∃ j v, vs[j]? = some v ∧ v ≠ .atom .nil ∧
      e = (.atom (.integer (BitVec.ofNat 64 (i + j))), v) := by
  induction vs generalizing i with
  | nil =>
      constructor
      · intro h
        cases h
      · rintro ⟨j, v, hv, -⟩
        cases hv
  | cons w vs ih =>
      rw [arrayEntries, List.mem_append, mem_arrayEntry, ih]
      constructor
      · rintro (⟨hw, rfl⟩ | ⟨j, v, hv, hne, rfl⟩)
        · exact ⟨0, w, rfl, hw, rfl⟩
        · refine ⟨j + 1, v, hv, hne, ?_⟩
          rw [Nat.add_assoc, Nat.add_comm 1 j]
      · rintro ⟨j, v, hv, hne, rfl⟩
        cases j with
        | zero =>
            cases hv
            exact .inl ⟨hne, rfl⟩
        | succ j =>
            refine .inr ⟨j, v, hv, hne, ?_⟩
            rw [Nat.add_assoc, Nat.add_comm 1 j]

theorem arrayEntries_nodup
    {i : ℕ} {vs : List Value} (h : i + vs.length ≤ 2 ^ 63) :
    (arrayEntries i vs).Nodup := by
  induction vs generalizing i with
  | nil => exact List.nodup_nil
  | cons v vs ih =>
      rw [List.length_cons] at h
      rw [arrayEntries, List.nodup_append]
      refine ⟨?_, ih (by omega), ?_⟩
      · unfold arrayEntry
        split
        · exact List.nodup_nil
        · exact List.nodup_singleton _
      · rintro e he e' he' rfl
        obtain ⟨-, rfl⟩ := mem_arrayEntry.1 he
        obtain ⟨j, w, hw, -, heq⟩ := mem_arrayEntries.1 he'
        have hj : j < vs.length := (List.getElem?_eq_some_iff.1 hw).1
        have hkey := (Prod.ext_iff.1 heq).1
        dsimp only at hkey
        rw [Value.atom.injEq, Atom.integer.injEq] at hkey
        have := integer_inj (by omega) (by omega) hkey
        omega

end Entries

/-! ## The array part and the hash part -/

section Parts

variable {es : Entries}

theorem inHash_eq_false {n : ℕ} {e : Value × Value} :
    inHash n e = false ↔ ∃ x : BitVec 64, e.1 = .atom (.integer x) ∧
      0 < x.toInt ∧ x.toInt ≤ n := by
  obtain ⟨k, v⟩ := e
  unfold inHash
  split
  · rename_i x w heq
    obtain ⟨rfl, rfl⟩ := Prod.mk.injEq .. ▸ heq
    constructor
    · intro h
      exact ⟨x, rfl, by simpa using h⟩
    · rintro ⟨y, hy, hrange⟩
      cases hy
      simpa using hrange
  · rename_i hne
    constructor
    · intro h
      cases h
    · rintro ⟨x, hx, -⟩
      dsimp only at hx
      subst hx
      exact (hne x v rfl).elim

/-- The array part holds the entries that are not in the hash part. -/
theorem mem_array_iff
    {n : ℕ} (hn : n < 2 ^ 31) (hdistinct : Distinct es)
    (hvalue : ∀ e ∈ es, e.2 ≠ .atom .nil) (e : Value × Value) :
    e ∈ arrayEntries 1
      ((List.range n).map fun i => Value.rawgeti es (i + 1)) ↔
      e ∈ es.filter fun e => !inHash n e := by
  rw [mem_arrayEntries, List.mem_filter, Bool.not_eq_true',
    inHash_eq_false]
  constructor
  · rintro ⟨j, v, hv, hne, rfl⟩
    rw [List.getElem?_map] at hv
    obtain ⟨i, hi, rfl⟩ := Option.map_eq_some_iff.1 hv
    obtain ⟨hlt, hi⟩ := List.getElem?_eq_some_iff.1 hi
    rw [List.getElem_range] at hi
    subst hi
    rw [List.length_range] at hlt
    rw [Nat.add_comm 1 j]
    have htoInt : (BitVec.ofNat 64 (j + 1)).toInt = ((j + 1 : ℕ) : ℤ) :=
      toInt_ofNat_of_lt (by omega)
    refine ⟨?_, BitVec.ofNat 64 (j + 1), rfl, by omega, by omega⟩
    unfold Value.rawgeti Value.rawget at hne ⊢
    cases hfind : es.find? (Value.isKey (.integer (BitVec.ofNat 64 (j + 1)))) with
    | none =>
        rw [hfind] at hne
        exact absurd rfl hne
    | some e =>
        have hkey := isKey_iff.1 (List.find?_some hfind)
        dsimp only
        rw [← hkey]
        exact List.mem_of_find?_eq_some hfind
  · rintro ⟨he, x, hx, hpos, hle⟩
    have hnat : (x.toNat : ℤ) = x.toInt := toNat_of_toInt_nonneg (by omega)
    have hindex : 1 + (x.toNat - 1) = x.toNat := by omega
    have hgeti : Value.rawgeti es (x.toNat - 1 + 1) = e.2 := by
      rw [Nat.add_comm, hindex, Value.rawgeti, Value.rawget,
        BitVec.ofNat_toNat, BitVec.setWidth_eq,
        find_of_mem hdistinct he (isKey_iff.2 hx)]
    refine ⟨x.toNat - 1, e.2, ?_, hvalue e he, ?_⟩
    · rw [List.getElem?_map, List.getElem?_range (by omega), Option.map_some,
        hgeti]
    · rw [hindex, BitVec.ofNat_toNat, BitVec.setWidth_eq, ← hx]

/-- All entries are in one of the two parts. -/
theorem parts_perm
    {n : ℕ} (hn : n < 2 ^ 31) (hdistinct : Distinct es)
    (hvalue : ∀ e ∈ es, e.2 ≠ .atom .nil) :
    (arrayEntries 1 ((List.range n).map fun i => Value.rawgeti es (i + 1)) ++
      es.filter (inHash n)).Perm es := by
  have hnodup : (es.filter fun e => !inHash n e).Nodup := by
    refine (hdistinct.filter _).imp_of_mem ?_
    rintro e e' he - hkeys rfl
    have hhash : inHash n e = false := by
      simpa using (List.mem_filter.1 he).2
    obtain ⟨x, hx, -⟩ := inHash_eq_false.1 hhash
    have hkey := isKey_iff.2 hx
    rw [hkeys _ hkey] at hkey
    cases hkey
  have harray : (arrayEntries 1
      ((List.range n).map fun i => Value.rawgeti es (i + 1))).Perm
      (es.filter fun e => !inHash n e) := by
    refine (List.perm_ext_iff_of_nodup (arrayEntries_nodup ?_) hnodup).2
      (mem_array_iff hn hdistinct hvalue)
    rw [List.length_map, List.length_range]
    omega
  have hboth := List.filter_append_perm (inHash n) es
  exact (List.perm_append_comm.trans
    (List.Perm.append_left _ harray)).trans hboth

end Parts

/-! ## Loops over the parts -/

theorem length_le_flatMap
    {α : Type*} {f : α → List UInt8} {a : α} {as : List α} (ha : a ∈ as) :
    (f a).length ≤ (as.flatMap f).length := by
  rw [List.flatMap_def]
  exact (List.sublist_flatten_of_mem (List.mem_map_of_mem ha)).length_le

theorem length_le_length_flatMap
    {α : Type*} {f : α → List UInt8} {as : List α}
    (h : ∀ a ∈ as, f a ≠ []) : as.length ≤ (as.flatMap f).length := by
  induction as with
  | nil => exact Nat.le_refl 0
  | cons a as ih =>
      have ha := List.length_pos_iff.2 (h a List.mem_cons_self)
      have has := ih fun b hb => h b (List.mem_cons_of_mem _ hb)
      rw [List.length_cons, List.flatMap_cons, List.length_append]
      omega

section Loops

variable {α : Type*} {code : α → List UInt8}

theorem WriteBlock.Pushes.trans
    {b b' b'' : WriteBlock} {bs cs : List UInt8} (h : Pushes b bs b')
    (h' : Pushes b' cs b'') : Pushes b (bs ++ cs) b'' := by
  refine ⟨h'.1, ?_⟩
  rw [h'.2, h.2, List.append_assoc]

/-- The function succeeds and pushes the bytes. -/
def Writes (pack : WriteBlock → Option WriteBlock) (bs : List UInt8) : Prop :=
  ∀ wb : WriteBlock, wb.Valid → ∃ wb', pack wb = some wb' ∧ Pushes wb bs wb'

theorem Writes.bind
    {f g : WriteBlock → Option WriteBlock} {bs cs : List UInt8}
    (hf : Writes f bs) (hg : Writes g cs) :
    Writes (fun wb => f wb >>= g) (bs ++ cs) := by
  intro wb hwb
  obtain ⟨wb', hwb', hpushes⟩ := hf wb hwb
  obtain ⟨wb'', hwb'', hpushes'⟩ := hg wb' hpushes.1
  refine ⟨wb'', ?_, hpushes.trans hpushes'⟩
  dsimp only
  rw [hwb']
  exact hwb''

theorem writes_packEach
    {pack : WriteBlock → α → Option WriteBlock} {as : List α}
    (h : ∀ a ∈ as, Writes (fun wb => pack wb a) (code a)) :
    Writes (fun wb => packEach pack wb as) (as.flatMap code) := by
  induction as with
  | nil =>
      intro wb hwb
      exact ⟨wb, rfl, hwb, (List.append_nil _).symm⟩
  | cons a as ih =>
      have hrest := ih fun a' ha' => h a' (List.mem_cons_of_mem _ ha')
      exact (h a List.mem_cons_self).bind hrest

variable {one : List UInt8 → Option (Value × List UInt8)}
  {code : Value → List UInt8} {dec : Value → Value}

/-- The array part is read back to new entries. -/
theorem unpackArray_eq
    {xs : List Value}
    (hone : ∀ x ∈ xs, ∀ rest, one (code x ++ rest) = some (dec x, rest))
    {i : ℕ} {es : Entries} (hi : i + xs.length ≤ 2 ^ 63)
    (hfresh : ∀ e ∈ es, ∀ j, i ≤ j → j < 2 ^ 63 →
      Value.isKey (.integer (BitVec.ofNat 64 j)) e = false)
    (rest : List UInt8) :
    unpackArray one xs.length i es (xs.flatMap code ++ rest) =
      some (es ++ arrayEntries i (xs.map dec), rest) := by
  induction xs generalizing i es with
  | nil =>
      rw [List.map_nil, arrayEntries, List.append_nil]
      rfl
  | cons x xs ih =>
      rw [List.length_cons] at hi
      have hnew : Value.rawseti es i (dec x) = es ++ arrayEntry i (dec x) :=
        rawseti_eq (fun e he => hfresh e he i (Nat.le_refl i) (by omega)) _
      rw [List.length_cons, unpackArray, List.flatMap_cons, List.append_assoc,
        hone x List.mem_cons_self]
      change unpackArray one xs.length (i + 1) (Value.rawseti es i (dec x))
        (xs.flatMap code ++ rest) = _
      rw [hnew, ih (fun x' hx' => hone x' (List.mem_cons_of_mem _ hx'))
        (by omega) ?_, List.append_assoc]
      · rfl
      · intro e he j hj hlt
        rcases List.mem_append.1 he with he | he
        · exact hfresh e he j (by omega) hlt
        · obtain ⟨-, rfl⟩ := mem_arrayEntry.1 he
          rw [Value.isKey, decide_eq_false_iff_not, Atom.integer.injEq]
          intro heq
          have := integer_inj (by omega) (by omega) heq
          omega

/-- One round of the loop over the hash part. -/
theorem unpackHash_succ
    {es es' : Entries} {rb rb' rb'' : List UInt8} {k v : Value} {n : ℕ}
    (hk : one rb = some (k, rb')) (hne : k ≠ .atom .nil)
    (hv : one rb' = some (v, rb'')) (hset : Value.rawset es k v = some es') :
    unpackHash one (n + 1) es rb = unpackHash one n es' rb'' := by
  rw [unpackHash, hk]
  simp only [Option.bind_eq_bind, Option.bind_some, hv, hset]

/-- The hash part is read back to new entries. -/
theorem unpackHash_eq
    {hs : Entries}
    (hkey : ∀ e ∈ hs, ∀ rest, one (code e.1 ++ rest) = some (dec e.1, rest))
    (hvalue : ∀ e ∈ hs, ∀ rest, one (code e.2 ++ rest) = some (dec e.2, rest))
    (hnil : ∀ rest, one (combineType typeNil 0 :: rest) =
      some (.atom .nil, rest))
    (hne : ∀ e ∈ hs, dec e.2 ≠ .atom .nil)
    (hatom : ∀ e ∈ hs, ∀ k, dec e.1 = .atom k →
      k.key = some k ∧ e.1 = .atom k)
    (hdistinct : Distinct hs) {es : Entries}
    (hfresh : ∀ e ∈ hs, ∀ k, e.1 = .atom k →
      ∀ f ∈ es, Value.isKey k f = false)
    {n : ℕ} (hn : hs.length < n) (rest : List UInt8) :
    unpackHash one n es ((hs.flatMap fun e => code e.1 ++ code e.2) ++
      combineType typeNil 0 :: rest) =
      some (es ++ hs.map fun e => (dec e.1, dec e.2), rest) := by
  induction hs generalizing es n with
  | nil =>
      cases n with
      | zero => exact absurd hn (Nat.not_lt_zero _)
      | succ n =>
          rw [unpackHash, List.flatMap_nil, List.nil_append, hnil,
            List.map_nil, List.append_nil]
          rfl
  | cons e hs ih =>
      cases n with
      | zero => exact absurd hn (Nat.not_lt_zero _)
      | succ n =>
          have hmem : e ∈ e :: hs := List.mem_cons_self
          have hset : Value.rawset es (dec e.1) (dec e.2) =
              some (es ++ [(dec e.1, dec e.2)]) := by
            refine rawset_append (hne e hmem) fun k hk => ?_
            obtain ⟨hnormal, hk⟩ := hatom e hmem k hk
            exact ⟨hnormal, hfresh e hmem k hk⟩
          have hkey' : dec e.1 ≠ .atom .nil := by
            intro hk
            obtain ⟨hnormal, -⟩ := hatom e hmem .nil hk
            cases hnormal
          rw [List.flatMap_cons, List.append_assoc, List.append_assoc,
            unpackHash_succ (hkey e hmem _) hkey' (hvalue e hmem _) hset,
            ih (fun f hf => hkey f (List.mem_cons_of_mem _ hf))
              (fun f hf => hvalue f (List.mem_cons_of_mem _ hf))
              (fun f hf => hne f (List.mem_cons_of_mem _ hf))
              (fun f hf => hatom f (List.mem_cons_of_mem _ hf))
              (List.pairwise_cons.1 hdistinct).2 ?_
              (Nat.lt_of_succ_lt_succ hn),
            List.append_assoc]
          · rfl
          · intro f hf k hk g hg
            rcases List.mem_append.1 hg with hg | hg
            · exact hfresh f (List.mem_cons_of_mem _ hf) k hk g hg
            · rw [List.mem_singleton.1 hg, Bool.eq_false_iff]
              intro htrue
              obtain ⟨-, hek⟩ := hatom e hmem k (isKey_iff.1 htrue)
              have hef := (List.pairwise_cons.1 hdistinct).1 f hf k
                (isKey_iff.2 hek)
              rw [isKey_iff.2 hk] at hef
              cases hef

/-- A table is read back from its head, its parts and the nil behind
them. -/
theorem unpackTable_eq
    {cookie n : ℕ} {cs : List UInt8} {xs : List Value} {hs : Entries}
    (hread : ∀ rest, readArraySize cookie (cs ++ rest) =
      some ((n : ℤ), rest))
    (hn : n < 2 ^ 31) (hxs : xs.length = n)
    (hone : ∀ x ∈ xs, ∀ rest, one (code x ++ rest) = some (dec x, rest))
    (hhash : ∀ m es rest, hs.length < m → es = arrayEntries 1 (xs.map dec) →
      unpackHash one m es ((hs.flatMap fun e => code e.1 ++ code e.2) ++
        combineType typeNil 0 :: rest) =
        some (es ++ hs.map fun e => (dec e.1, dec e.2), rest))
    (hcode : ∀ e ∈ hs, code e.1 ++ code e.2 ≠ []) (rest : List UInt8) :
    unpackTable one cookie ((cs ++ (xs.flatMap code ++
      ((hs.flatMap fun e => code e.1 ++ code e.2) ++
        [combineType typeNil 0]))) ++ rest) =
      some (.table 0 (arrayEntries 1 (xs.map dec) ++
        hs.map fun e => (dec e.1, dec e.2)), rest) := by
  have harray : ∀ rest, unpackArray one n 1 [] (xs.flatMap code ++ rest) =
      some (arrayEntries 1 (xs.map dec), rest) := by
    intro rest
    rw [← hxs]
    exact unpackArray_eq hone (by omega) (fun e he => by cases he) rest
  have hlength := length_le_length_flatMap hcode
  simp only [List.append_assoc, List.singleton_append]
  rw [unpackTable, hread]
  simp only [Option.bind_eq_bind, Option.bind_some, Int.toNat_natCast, harray]
  rw [hhash _ _ _ ?_ rfl]
  · rfl
  · rw [List.length_append, List.length_cons]
    omega

end Loops

/-! ## Values -/

/-- A value is read back from its bytes by `unpack_one`, if that may go deep
enough. -/
def Reads (bs : List UInt8) (v : Value) : Prop :=
  ∃ t cs, bs = t :: cs ∧ ∀ n, cs.length ≤ n → ∀ rest,
    pushValue (unpackOne n) (t.toNat &&& 7) (t.toNat >>> 3) (cs ++ rest) =
      some (v, rest)

theorem Reads.unpackOne
    {bs : List UInt8} {v : Value} (h : Reads bs v) {n : ℕ}
    (hn : bs.length ≤ n) (rest : List UInt8) :
    unpackOne n (bs ++ rest) = some (v, rest) := by
  obtain ⟨t, cs, rfl, hread⟩ := h
  cases n with
  | zero => cases hn
  | succ n =>
      rw [Seri.unpackOne, List.cons_append, read_one]
      exact hread n (Nat.le_of_succ_le_succ hn) rest

/-- A value is written to its bytes, and another one read from them, which is
the same. -/
structure ValueCode (room : ℕ) (v : Value) (bs : List UInt8) (v' : Value) :
    Prop where
  writes : Writes (fun wb => packOne room wb v) bs
  reads : Reads bs v'
  same : Same v v'

theorem atom_valueCode {a : Atom} (h : a.Fits) (room : ℕ) :
    ∃ bs, ValueCode (room + 1) (.atom a) bs (.atom a) := by
  obtain ⟨t, cs, hpacks, hreads⟩ := atom_code h
  refine ⟨t :: cs, fun wb hwb => ⟨_, rfl, hpacks wb hwb⟩,
    ⟨t, cs, rfl, fun n _ rest => hreads _ rest⟩, .atom a⟩

/-- The array size is written in the head of a table and read back. -/
theorem tableHead_code {n : ℕ} (hn : n < 2 ^ 31) :
    ∃ cookie < 32, ∃ cs,
      Packs (fun wb => wbTableHead wb n)
        (combineType typeTable (cookie : ℕ) :: cs) ∧
      ∀ rest, readArraySize cookie (cs ++ rest) = some ((n : ℤ), rest) := by
  by_cases hsmall : n < 31
  · refine ⟨n, by omega, [], fun wb hwb => ?_, fun rest => ?_⟩
    · dsimp only
      rw [wbTableHead, if_neg (by unfold maxCookie; omega)]
      exact pushes_push hwb _
    · rw [readArraySize, if_neg (by unfold maxCookie; omega)]
      rfl
  · obtain ⟨cookie, cs, hcode⟩ := exists_integerCode (BitVec.ofInt 64 n)
    obtain ⟨htype, hcookie⟩ :=
      combineType_cookie typeNumber (by decide) cookie hcode.lt
    have htoInt : ((BitVec.ofInt 64 (n : ℤ)).setWidth 32).toInt = n := by
      rw [BitVec.ofInt_natCast, BitVec.setWidth_ofNat_of_le (by decide)]
      exact toInt_of_lt hn
    refine ⟨31, by decide, combineType typeNumber (cookie : ℕ) :: cs,
      fun wb hwb => ?_, fun rest => ?_⟩
    · dsimp only
      rw [wbTableHead, if_pos (by unfold maxCookie; omega)]
      have hhead := pushes_push hwb [combineType typeTable (maxCookie - 1)]
      exact hhead.trans (hcode.packs _ hhead.1)
    · have hread : read 1 (combineType typeNumber (cookie : ℕ) :: cs ++ rest) =
          some ([combineType typeNumber (cookie : ℕ)], cs ++ rest) :=
        read_one _ _
      have hnumber : number [combineType typeNumber (cookie : ℕ)] =
          (combineType typeNumber (cookie : ℕ)).toNat := rfl
      rw [readArraySize, if_pos (by decide), hread]
      simp only [Option.bind_eq_bind, Option.bind_some, hnumber, htype, hcookie]
      rw [if_neg (not_or.2 ⟨not_not.2 rfl, hcode.ne⟩), hcode.get]
      simp only [Option.bind_some, htoInt]
      rfl

/-- Reading back the entries of an array part. -/
theorem arrayEntries_map
    {dec : Value → Value} {i : ℕ} {xs : List Value}
    (hnil : ∀ x ∈ xs, dec x = .atom .nil ↔ x = .atom .nil)
    (hkey : ∀ e ∈ arrayEntries i xs, dec e.1 = e.1) :
    ((arrayEntries i xs).map fun e => (dec e.1, dec e.2)) =
      arrayEntries i (xs.map dec) := by
  induction xs generalizing i with
  | nil => rfl
  | cons x xs ih =>
      have hhead : ((arrayEntry i x).map fun e => (dec e.1, dec e.2)) =
          arrayEntry i (dec x) := by
        by_cases hx : x = .atom .nil
        · rw [(hnil x List.mem_cons_self).2 hx, hx]
          rfl
        · have hdec : dec x ≠ .atom .nil := fun h =>
            hx ((hnil x List.mem_cons_self).1 h)
          have hentry : ∀ y : Value, y ≠ .atom .nil → arrayEntry i y =
              [(.atom (.integer (BitVec.ofNat 64 i)), y)] := by
            intro y hy
            unfold arrayEntry
            split
            · exact absurd rfl hy
            · rfl
          have hmem : (.atom (.integer (BitVec.ofNat 64 i)), x) ∈
              arrayEntries i (x :: xs) :=
            List.mem_append_left _ (mem_arrayEntry.2 ⟨hx, rfl⟩)
          rw [hentry x hx, hentry (dec x) hdec, List.map_singleton,
            hkey _ hmem]
      rw [List.map_cons, arrayEntries, arrayEntries, List.map_append, hhead,
        ih (fun y hy => hnil y (List.mem_cons_of_mem _ hy))
          fun e he => hkey e (List.mem_append_right _ he)]

/-- What holds of the values that are packed. -/
structure Packable (room : ℕ) (v : Value) : Prop where
  wellFormed : WellFormed v
  within : Within room v
  fits : Fits v

/-- The array size that is written for a border. -/
theorem exists_arraySize {border : ℕ} (h : 0 ≤ toInt border) :
    ∃ n : ℕ, n < 2 ^ 31 ∧ toInt border = n := by
  refine ⟨(toInt border).toNat, ?_, (Int.toNat_of_nonneg h).symm⟩
  have hlt : toInt border < 2 ^ 31 := BitVec.toInt_lt
  omega

/-- The values in a table. -/
structure Inside (room : ℕ) (border : ℕ) (es : Entries) : Prop where
  distinct : Distinct es
  value : ∀ e ∈ es, e.2 ≠ .atom .nil
  key : ∀ e ∈ es, ∀ k, e.1 = .atom k → k.key = some k
  packableKey : ∀ e ∈ es, Packable room e.1
  packableValue : ∀ e ∈ es, Packable room e.2
  packableArray : ∀ i < (toInt border).toNat,
    Packable room (Value.rawgeti es (i + 1))

theorem Packable.inside
    {room border : ℕ} {es : Entries}
    (h : Packable (room + 1) (.table border es)) : Inside room border es := by
  obtain _ | ⟨_, _, hborder, hdistinct, hentry, hwfkey, hwfvalue⟩ :=
    h.wellFormed
  obtain _ | ⟨_, _, _, hwithkey, hwithvalue⟩ := h.within
  obtain _ | ⟨_, _, -, hfitkey, hfitvalue⟩ := h.fits
  have hvalue : ∀ e ∈ es, Packable room e.2 := fun e he =>
    ⟨hwfvalue e he, hwithvalue e he, hfitvalue e he⟩
  have hfound : ∀ i, Value.rawgeti es i = .atom .nil ∨
      ∃ e ∈ es, Value.rawgeti es i = e.2 := by
    intro i
    unfold Value.rawgeti Value.rawget
    cases hfind : es.find? (Value.isKey (.integer (BitVec.ofNat 64 i))) with
    | none => exact .inl rfl
    | some e => exact .inr ⟨e, List.mem_of_find?_eq_some hfind, rfl⟩
  refine ⟨hdistinct, fun e he => (hentry e he).1, fun e he => (hentry e he).2,
    fun e he => ⟨hwfkey e he, hwithkey e he, hfitkey e he⟩, hvalue,
    fun i hi => ?_⟩
  rcases hfound (i + 1) with hnil | ⟨e, he, heq⟩
  · -- nil is written for a hole, but then the border has an entry
    have hpos : border ≠ 0 := by
      rintro rfl
      exact absurd hi (Nat.not_lt_zero i)
    rcases hfound border with hzero | ⟨e, he, -⟩
    · exact absurd hzero (hborder.1.resolve_left hpos)
    · rw [hnil]
      have hroom := hwithvalue e he
      cases room with
      | zero => cases hroom
      | succ room => exact ⟨.atom _, .atom room _, .atom _ trivial⟩
  · rw [heq]
    exact hvalue e he

theorem table_valueCode
    {room border : ℕ} {es : Entries}
    (h : Packable (room + 1) (.table border es))
    (ih : ∀ v, Packable room v → ∃ bs v', ValueCode room v bs v') :
    ∃ bs v', ValueCode (room + 1) (.table border es) bs v' := by
  have hinside := h.inside
  obtain _ | ⟨_, _, hnonneg, -, -⟩ := h.fits
  obtain ⟨n, hn, hsize⟩ := exists_arraySize hnonneg
  have hchoice : ∀ v, ∃ p : List UInt8 × Value,
      Packable room v → ValueCode room v p.1 p.2 := by
    intro v
    by_cases hv : Packable room v
    · obtain ⟨bs, v', hcode⟩ := ih v hv
      exact ⟨(bs, v'), fun _ => hcode⟩
    · exact ⟨([], v), fun h => absurd h hv⟩
  choose p hp using hchoice
  obtain ⟨cookie, hcookie, cs, hpacks, hread⟩ := tableHead_code hn
  -- the values of the array part and the entries of the hash part
  generalize hxs : ((List.range n).map fun i => Value.rawgeti es (i + 1)) = xs
  generalize hhs : es.filter (inHash n) = hs
  have hmemx : ∀ x ∈ xs, ValueCode room x (p x).1 (p x).2 := by
    intro x hx
    rw [← hxs] at hx
    obtain ⟨i, hi, rfl⟩ := List.mem_map.1 hx
    refine hp _ (hinside.packableArray i ?_)
    rw [hsize]
    exact List.mem_range.1 hi
  have hmemh : ∀ e ∈ hs, ValueCode room e.1 (p e.1).1 (p e.1).2 ∧
      ValueCode room e.2 (p e.2).1 (p e.2).2 := by
    intro e he
    rw [← hhs] at he
    have he := List.mem_of_mem_filter he
    exact ⟨hp _ (hinside.packableKey e he), hp _ (hinside.packableValue e he)⟩
  refine ⟨combineType typeTable (cookie : ℕ) :: (cs ++
    ((xs.flatMap fun x => (p x).1) ++
      ((hs.flatMap fun e => (p e.1).1 ++ (p e.2).1) ++
        [combineType typeNil 0]))),
    .table 0 (arrayEntries 1 (xs.map fun x => (p x).2) ++
      hs.map fun e => ((p e.1).2, (p e.2).2)), ?_, ?_, ?_⟩
  · intro wb hwb
    have harray : Writes (fun wb => packEach (packOne room) wb xs)
        (xs.flatMap fun x => (p x).1) :=
      writes_packEach fun x hx => (hmemx x hx).writes
    have hhash : Writes (fun wb => packEach (fun wb (e : Value × Value) => do
        let wb ← packOne room wb e.1
        packOne room wb e.2) wb hs)
        (hs.flatMap fun e => (p e.1).1 ++ (p e.2).1) :=
      writes_packEach fun e he => (hmemh e he).1.writes.bind (hmemh e he).2.writes
    have hend : Writes (fun wb => some (wbNil wb)) [combineType typeNil 0] :=
      fun wb hwb => ⟨_, rfl, pushes_push hwb _⟩
    have hhead := hpacks wb hwb
    obtain ⟨wb', hwb', hpushes⟩ :=
      harray.bind (hhash.bind hend) (wbTableHead wb n) hhead.1
    refine ⟨wb', ?_, hhead.trans hpushes⟩
    rw [← hwb', ← hxs, ← hhs]
    dsimp only
    rw [packOne, hsize]
    rfl
  · refine ⟨_, _, rfl, fun m hm rest => ?_⟩
    obtain ⟨htype, hcookie'⟩ :=
      combineType_cookie typeTable (by decide) cookie hcookie
    simp only [List.length_append] at hm
    have hlength : ∀ e ∈ hs, (p e.1).1.length + (p e.2).1.length ≤ m := by
      intro e he
      have hle := length_le_flatMap (f := fun e : Value × Value =>
        (p e.1).1 ++ (p e.2).1) he
      rw [List.length_append] at hle
      omega
    rw [htype, hcookie']
    refine unpackTable_eq hread hn ?_ (fun x hx => ?_) ?_ ?_ rest
    · rw [← hxs, List.length_map, List.length_range]
    · have hle := length_le_flatMap (f := fun x => (p x).1) hx
      exact (hmemx x hx).reads.unpackOne (by omega)
    · rintro k es' rest hk rfl
      have hsub : ∀ e ∈ hs, e ∈ es ∧ inHash n e = true := fun e he =>
        List.mem_filter.1 (hhs ▸ he)
      have hkey : ∀ e ∈ hs, ∀ rest, unpackOne m ((p e.1).1 ++ rest) =
          some ((p e.1).2, rest) := by
        intro e he
        have hle := hlength e he
        exact (hmemh e he).1.reads.unpackOne (by omega)
      have hvalue : ∀ e ∈ hs, ∀ rest, unpackOne m ((p e.2).1 ++ rest) =
          some ((p e.2).2, rest) := by
        intro e he
        have hle := hlength e he
        exact (hmemh e he).2.reads.unpackOne (by omega)
      have hnil : ∀ rest, unpackOne m (combineType typeNil 0 :: rest) =
          some (.atom .nil, rest) := by
        intro rest
        cases m with
        | zero => exact absurd hm (by simp)
        | succ m =>
            rw [unpackOne, read_one]
            rfl
      refine @unpackHash_eq (unpackOne m) (fun v => (p v).1)
        (fun v => (p v).2) hs hkey hvalue hnil ?_ ?_ ?_ _ ?_ k hk rest
      · intro e he hzero
        exact hinside.value e (hsub e he).1
          ((hmemh e he).2.same.atom_iff.1 hzero)
      · intro e he a ha
        have ha := (hmemh e he).1.same.atom_iff.1 ha
        exact ⟨hinside.key e (hsub e he).1 a ha, ha⟩
      · rw [← hhs]
        exact hinside.distinct.filter _
      · intro e he a ha f hf
        rw [Bool.eq_false_iff]
        intro htrue
        obtain ⟨j, v, hj, -, rfl⟩ := mem_arrayEntries.1 hf
        have hj := (List.getElem?_eq_some_iff.1 hj).1
        rw [List.length_map, ← hxs, List.length_map, List.length_range] at hj
        have hkeys := isKey_iff.1 htrue
        have htoInt : (BitVec.ofNat 64 (1 + j)).toInt = ((1 + j : ℕ) : ℤ) :=
          toInt_ofNat_of_lt (by omega)
        have hfalse : inHash n e = false := inHash_eq_false.2
          ⟨_, ha.trans hkeys.symm, by omega, by omega⟩
        rw [(hsub e he).2] at hfalse
        cases hfalse
    · intro e he
      obtain ⟨t, cs', hcs', -⟩ := (hmemh e he).1.reads
      rw [hcs']
      exact List.cons_ne_nil _ _
  · have hperm : (arrayEntries 1 xs ++ hs).Perm es := by
      rw [← hxs, ← hhs]
      exact parts_perm hn hinside.distinct hinside.value
    have hes : ∀ e ∈ es, ValueCode room e.1 (p e.1).1 (p e.1).2 ∧
        ValueCode room e.2 (p e.2).1 (p e.2).2 := fun e he =>
      ⟨hp _ (hinside.packableKey e he), hp _ (hinside.packableValue e he)⟩
    have harray : ((arrayEntries 1 xs).map fun e => ((p e.1).2, (p e.2).2)) =
        arrayEntries 1 (xs.map fun x => (p x).2) := by
      refine arrayEntries_map (fun x hx => (hmemx x hx).same.atom_iff) ?_
      intro e he
      have hcode := (hes e (hperm.subset (List.mem_append_left _ he))).1
      obtain ⟨j, v, -, -, rfl⟩ := mem_arrayEntries.1 he
      exact hcode.same.eq_atom
    refine .table border 0 es (es.map fun e => ((p e.1).2, (p e.2).2)) _ ?_ ?_ ?_
    · rw [List.forall₂_map_right_iff]
      exact List.forall₂_same.2 fun e he => (hes e he).1.same
    · rw [List.forall₂_map_right_iff]
      exact List.forall₂_same.2 fun e he => (hes e he).2.same
    · rw [← harray, ← List.map_append]
      exact (hperm.map _).symm

/-- A value that is within the depth limit is written to its bytes and read
back. -/
theorem exists_valueCode {room : ℕ} {v : Value} (h : Packable room v) :
    ∃ bs v', ValueCode room v bs v' := by
  induction room generalizing v with
  | zero => cases h.within
  | succ room ih =>
      cases v with
      | atom a =>
          obtain ⟨_, ha⟩ := h.fits
          obtain ⟨bs, hcode⟩ := atom_valueCode ha room
          exact ⟨bs, _, hcode⟩
      | table border es => exact table_valueCode h fun v hv => ih hv

/-! ## Lists of values -/

/-- The values are read back one after the other. -/
theorem unpackAll_eq
    {code : Value → List UInt8} {dec : Value → Value} {vs : List Value}
    (h : ∀ v ∈ vs, Reads (code v) (dec v)) {n : ℕ} (hn : vs.length < n) :
    unpackAll n (vs.flatMap code) = some (vs.map dec) := by
  induction vs generalizing n with
  | nil =>
      cases n with
      | zero => exact absurd hn (Nat.not_lt_zero _)
      | succ n => rfl
  | cons v vs ih =>
      cases n with
      | zero => exact absurd hn (Nat.not_lt_zero _)
      | succ n =>
          obtain ⟨t, cs, hcs, hread⟩ := h v List.mem_cons_self
          have hrest := ih (fun w hw => h w (List.mem_cons_of_mem _ hw))
            (Nat.lt_of_succ_lt_succ hn)
          rw [List.flatMap_cons, hcs, List.cons_append, unpackAll, read_one]
          have hvalue := hread (t :: (cs ++ vs.flatMap code)).length
            (by simp only [List.length_cons, List.length_append]; omega)
            (vs.flatMap code)
          have hnumber : number [t] = t.toNat := rfl
          simp only [hnumber, hvalue, Option.bind_eq_bind, Option.bind_some,
            hrest]
          rfl

/-- What `luaseri_pack` writes is read back by `luaseri_unpack`, if the casts
to `int` keep it. -/
theorem unpack_pack
    {vs : List Value} (hwf : ∀ v ∈ vs, WellFormed v)
    (hdepth : ∀ v ∈ vs, Within (maxDepth + 1) v) (hfits : ∀ v ∈ vs, Fits v) :
    ∃ buffer, luaseriPack vs = some buffer ∧ (buffer.length < 2 ^ 31 →
      ∃ vs', luaseriUnpack buffer (toInt buffer.length) = some vs' ∧
        List.Forall₂ Same vs vs') := by
  have hchoice : ∀ v, ∃ p : List UInt8 × Value,
      Packable (maxDepth + 1) v → ValueCode (maxDepth + 1) v p.1 p.2 := by
    intro v
    by_cases hv : Packable (maxDepth + 1) v
    · obtain ⟨bs, v', hcode⟩ := exists_valueCode hv
      exact ⟨(bs, v'), fun _ => hcode⟩
    · exact ⟨([], v), fun h => absurd h hv⟩
  choose p hp using hchoice
  have hcode : ∀ v ∈ vs, ValueCode (maxDepth + 1) v (p v).1 (p v).2 :=
    fun v hv => hp v ⟨hwf v hv, hdepth v hv, hfits v hv⟩
  have hwrites : Writes (fun wb => packEach (packOne (maxDepth + 1)) wb vs)
      (vs.flatMap fun v => (p v).1) :=
    writes_packEach fun v hv => (hcode v hv).writes
  obtain ⟨wb, hwb, hvalid, hcontents⟩ := hwrites wbInit valid_wbInit
  have hbuffer : seri wb = vs.flatMap fun v => (p v).1 := by
    rw [seri_eq hvalid, hcontents]
    rfl
  refine ⟨seri wb, ?_, fun hsize => ⟨vs.map fun v => (p v).2, ?_, ?_⟩⟩
  · rw [luaseriPack]
    dsimp only at hwb
    rw [hwb]
    rfl
  · have hreads : ∀ v ∈ vs, Reads (p v).1 (p v).2 := fun v hv =>
      (hcode v hv).reads
    have hlength : vs.length ≤ (seri wb).length := by
      rw [hbuffer]
      refine length_le_length_flatMap fun v hv => ?_
      obtain ⟨t, cs, hcs, -⟩ := hreads v hv
      rw [hcs]
      exact List.cons_ne_nil _ _
    rw [luaseriUnpack, toInt_of_lt hsize]
    split
    · rename_i hzero
      have hnil : vs = [] := List.eq_nil_of_length_eq_zero (by omega)
      subst hnil
      rfl
    · dsimp only
      rw [Int.toNat_natCast, List.take_length]
      rw [hbuffer] at hlength ⊢
      exact unpackAll_eq hreads (by omega)
  · rw [List.forall₂_map_right_iff]
    exact List.forall₂_same.2 fun v hv => (hcode v hv).same

/-- A table with an array part and a hash part. -/
def mixedTable : Value :=
  .table 1
    [(.atom (.integer 1), .atom (.string [97])),
      (.atom (.string [120]), .atom (.boolean true))]

theorem unpack_pack_mixed :
    ∃ buffer, luaseriPack [.atom (.integer 300), mixedTable] = some buffer ∧
      buffer.length < 2 ^ 31 ∧
      ∃ vs', luaseriUnpack buffer (toInt buffer.length) = some vs' ∧
        List.Forall₂ Same [.atom (.integer 300), mixedTable] vs' := by
  have hwf : ∀ v ∈ [.atom (.integer 300), mixedTable], WellFormed v := by
    simp only [List.forall_mem_cons, List.not_mem_nil]
    refine ⟨.atom _, .table _ _ ⟨.inr (fun h => (by cases h)), rfl⟩ ?_ ?_ ?_ ?_,
      fun _ h => h.elim⟩
    · refine List.pairwise_pair.2 fun k hk => ?_
      cases isKey_iff.1 hk
      rfl
    all_goals simp only [List.forall_mem_cons, List.not_mem_nil]
    · refine ⟨⟨fun h => (by cases h), fun k hk => ?_⟩,
        ⟨fun h => (by cases h), fun k hk => ?_⟩, fun _ h => h.elim⟩
      all_goals
        cases hk
        rfl
    · exact ⟨.atom _, .atom _, fun _ h => h.elim⟩
    · exact ⟨.atom _, .atom _, fun _ h => h.elim⟩
  have hdepth : ∀ v ∈ [.atom (.integer 300), mixedTable],
      Within (maxDepth + 1) v := by
    simp only [List.forall_mem_cons, List.not_mem_nil]
    refine ⟨.atom _ _, .table _ _ _ ?_ ?_, fun _ h => h.elim⟩
    all_goals
      simp only [List.forall_mem_cons, List.not_mem_nil]
      exact ⟨.atom _ _, .atom _ _, fun _ h => h.elim⟩
  have hfits : ∀ v ∈ [.atom (.integer 300), mixedTable], Fits v := by
    simp only [List.forall_mem_cons, List.not_mem_nil]
    refine ⟨.atom _ trivial, .table _ _ (by decide) ?_ ?_, fun _ h => h.elim⟩
    · simp only [List.forall_mem_cons, List.not_mem_nil]
      refine ⟨.atom _ trivial, .atom _ ?_, fun _ h => h.elim⟩
      show _ < _
      decide
    · simp only [List.forall_mem_cons, List.not_mem_nil]
      refine ⟨.atom _ ?_, .atom _ trivial, fun _ h => h.elim⟩
      show _ < _
      decide
  obtain ⟨buffer, hbuffer, hread⟩ := unpack_pack hwf hdepth hfits
  have hsize : buffer.length < 2 ^ 31 := by
    cases hbuffer
    decide +kernel
  exact ⟨buffer, hbuffer, hsize, hread hsize⟩

/-- The keys 1, 2, 4 and so on up to 2^31, and two behind it. -/
def sparseKeys : List (BitVec 64) :=
  (List.range 32).map (fun i => BitVec.ofNat 64 (2 ^ i)) ++
    [BitVec.ofNat 64 (2 ^ 31 + 2), BitVec.ofNat 64 (2 ^ 31 + 3)]

def sparseEntries : Entries :=
  sparseKeys.map fun k => (.atom (.integer k), .atom (.boolean true))

/-- A table for which `lua_rawlen` returns 2^31 + 3, as it doubles the index
while there is an entry and then halves the distance, cannot be read back:
the border is negative as an `int`, and its low bits are the cookie. -/
theorem sparse_table_not_read_back :
    WellFormed (.table (2 ^ 31 + 3) sparseEntries) ∧
      Within (maxDepth + 1) (.table (2 ^ 31 + 3) sparseEntries) ∧
      ∃ buffer, luaseriPack [.table (2 ^ 31 + 3) sparseEntries] =
        some buffer ∧ buffer.length < 2 ^ 31 ∧
        luaseriUnpack buffer (toInt buffer.length) = none := by
  have hentry : ∀ e ∈ sparseEntries, ∃ k ∈ sparseKeys,
      e = (.atom (.integer k), .atom (.boolean true)) := by
    intro e he
    obtain ⟨k, hk, rfl⟩ := List.mem_map.1 he
    exact ⟨k, hk, rfl⟩
  have hnodup : sparseKeys.Nodup := by decide +kernel
  refine ⟨.table _ _ ⟨.inr ?_, rfl⟩ ?_ ?_ ?_ ?_, .table _ _ _ ?_ ?_, ?_⟩
  · have hvalue : Value.rawgeti sparseEntries (2 ^ 31 + 3) =
        .atom (.boolean true) := rfl
    rw [hvalue]
    intro h
    cases h
  · refine List.pairwise_map.2 (hnodup.imp ?_)
    intro k k' hne a ha
    cases isKey_iff.1 ha
    rw [Bool.eq_false_iff]
    intro ha'
    cases isKey_iff.1 ha'
    exact hne rfl
  · intro e he
    obtain ⟨k, -, rfl⟩ := hentry e he
    refine ⟨fun h => (by cases h), fun a ha => ?_⟩
    cases ha
    rfl
  · intro e he
    obtain ⟨k, -, rfl⟩ := hentry e he
    exact .atom _
  · intro e he
    obtain ⟨k, -, rfl⟩ := hentry e he
    exact .atom _
  · intro e he
    obtain ⟨k, -, rfl⟩ := hentry e he
    exact .atom _ _
  · intro e he
    obtain ⟨k, -, rfl⟩ := hentry e he
    exact .atom _ _
  · have hrun : ((luaseriPack [.table (2 ^ 31 + 3) sparseEntries]).any fun b =>
        decide (b.length < 2 ^ 31) &&
          (luaseriUnpack b (toInt b.length)).isNone) = true := by
      decide +kernel
    obtain ⟨buffer, hbuffer, htest⟩ := (Option.any_eq_true _ _).1 hrun
    rw [Bool.and_eq_true, decide_eq_true_iff, Option.isNone_iff_eq_none]
      at htest
    exact ⟨buffer, hbuffer, htest⟩

end SkynetServer.Seri
