import SkynetServer.Sproto.PackSize
import SkynetServer.Sproto.Unpack

/-!
# Unpacking what was packed

Behind every round, what lies in front of the run that is open is complete and
has the words in front of it, and the words of the run are still in the input.
A run is copied from the input when it ends.  With 256 words it is copied as a
whole, although its last word may be the one with padding: then the bytes behind
the input are copied.
-/

namespace SkynetServer.SprotoPack

open Function

/-! ## Segments -/

section Segments

variable {i n des : ℕ} {src w bytes : List UInt8} {s : Seg} {memory : Memory}
  {buffer : ℕ} {sz : ℤ}

theorem store_nil : store memory des [] = memory := by
  funext k
  exact if_neg fun h => Nat.not_lt.mpr h.1 h.2

theorem store_cons (b : UInt8) :
    store memory des (b :: bytes) =
      store (update memory des b) (des + 1) bytes := by
  funext k
  rw [store, store, List.length_cons]
  rcases Nat.lt_trichotomy k des with hlt | rfl | hgt
  · rw [if_neg (by omega), if_neg (by omega), update_of_ne (by omega)]
  · rw [if_pos (by omega), if_neg (by omega), update_self, Nat.sub_self]
    rfl
  · obtain ⟨j, rfl⟩ : ∃ j, k = des + 1 + j := ⟨k - (des + 1), by omega⟩
    have hsub : des + 1 + j - des = j + 1 := by omega
    by_cases hj : j < bytes.length
    · rw [if_pos (by omega), if_pos (by omega), hsub, Nat.add_sub_cancel_left]
      rfl
    · rw [if_neg (by omega), if_neg (by omega), update_of_ne (by omega)]

/-- The loop of `pack_seg` writes the bytes that are not zero. -/
theorem segLoop_store
    (hroom : nonzeros src ≤ s.sz) :
    (segLoop i src s).memory =
      store s.memory s.buffer (src.filter (· ≠ 0)) := by
  induction src generalizing i s with
  | nil => exact store_nil.symm
  | cons b src ih =>
      rw [segLoop]
      by_cases hb : b = 0
      · rw [if_neg (not_not.mpr hb),
          List.filter_cons_of_neg (by simpa using hb)]
        refine ih ?_
        rw [nonzeros, List.countP_cons_of_neg (by simpa using hb)] at hroom
        exact hroom
      · rw [nonzeros, List.countP_cons_of_pos (by simpa using hb)] at hroom
        rw [if_pos hb, List.filter_cons_of_pos (by simpa using hb)]
        dsimp only
        rw [if_pos (by omega), ih, store_cons]
        dsimp only
        rw [nonzeros]
        omega

/-- The bits of the header are those of the bytes that are not zero. -/
theorem segLoop_testBit (j : ℕ) :
    (segLoop i src s).header.testBit j = true ↔
      s.header.testBit j = true ∨ i ≤ j ∧ src.getD (j - i) 0 ≠ 0 := by
  induction src generalizing i s with
  | nil =>
      refine (or_iff_left ?_).symm
      exact fun h => h.2 rfl
  | cons b src ih =>
      have hbit : (if b ≠ 0 then s.header ||| 1 <<< i else s.header).testBit j =
          true ↔ s.header.testBit j = true ∨ j = i ∧ b ≠ 0 := by
        split
        · rename_i hb
          rw [Nat.testBit_or, Nat.one_shiftLeft, Nat.testBit_two_pow,
            Bool.or_eq_true, decide_eq_true_iff, and_iff_left hb,
            eq_comm (a := i)]
        · rename_i hb
          exact (or_iff_left fun h => hb h.2).symm
      have hcons : i ≤ j ∧ (b :: src).getD (j - i) 0 ≠ 0 ↔
          j = i ∧ b ≠ 0 ∨ i + 1 ≤ j ∧ src.getD (j - (i + 1)) 0 ≠ 0 := by
        rcases Nat.lt_trichotomy j i with hlt | rfl | hgt
        · omega
        · rw [Nat.sub_self, List.getD_cons_zero]
          constructor
          · exact fun h => .inl ⟨rfl, h.2⟩
          · rintro (h | h)
            · exact ⟨Nat.le_refl j, h.2⟩
            · exact absurd h.1 (Nat.not_succ_le_self j)
        · obtain ⟨k, rfl⟩ : ∃ k, j = i + 1 + k := ⟨j - (i + 1), by omega⟩
          rw [show i + 1 + k - i = k + 1 by omega, List.getD_cons_succ,
            Nat.add_sub_cancel_left]
          constructor
          · exact fun h => .inr ⟨Nat.le_add_right _ _, h.2⟩
          · rintro (h | h)
            · omega
            · exact ⟨by omega, h.2⟩
      rw [segLoop, ih, hcons, ← or_assoc, ← hbit]
      by_cases hb : b = 0
      · rw [if_neg (not_not.mpr hb), if_neg (not_not.mpr hb)]
      · rw [if_pos hb, if_pos hb]
        dsimp only
        split <;> rfl

/-- The bits for the bytes of a word. -/
def notzero (w : List UInt8) : List Bool := w.map fun b => decide (b ≠ 0)

theorem bitsOf_segLoop
    (memory : Memory) (buffer : ℕ) (sz : ℤ) (hlen : w.length = 8) :
    bitsOf (.ofNat (segLoop 0 w ⟨0, 0, buffer + 1, sz - 1, memory⟩).header) =
      notzero w := by
  refine List.ext_getElem ?_ fun j hj hj' => ?_
  · rw [notzero, List.length_map, hlen]
    rfl
  · rw [length_bitsOf] at hj
    rw [notzero, List.length_map] at hj'
    simp only [bitsOf, notzero, List.getElem_map, List.getElem_range]
    rw [UInt8.toNat_ofNat', Nat.testBit_mod_two_pow, decide_eq_true hj,
      Bool.true_and, Bool.eq_iff_iff, segLoop_testBit, Nat.zero_testBit,
      Nat.sub_zero, List.getD_eq_getElem _ _ hj', decide_eq_true_iff]
    exact ⟨fun h => by
      rcases h with h | h
      · cases h
      · exact h.2, fun h => .inr ⟨Nat.zero_le j, h⟩⟩

theorem fill_notzero (w rest : List UInt8) :
    fill (notzero w) (w.filter (· ≠ 0) ++ rest) = some (w, rest) := by
  rw [notzero]
  induction w with
  | nil => rfl
  | cons b w ih =>
      by_cases hb : b = 0
      · rw [List.filter_cons_of_neg (by simpa using hb), List.map_cons, hb,
          fill, decide_eq_false (not_not.mpr rfl), byteOf, Option.bind_some, ih]
        rfl
      · rw [List.filter_cons_of_pos (by simpa using hb), List.map_cons,
          decide_eq_true hb, List.cons_append, fill, byteOf, Option.bind_some,
          ih]
        rfl

theorem count_notzero (w : List UInt8) :
    (notzero w).count true = nonzeros w := by
  rw [notzero, List.count, List.countP_map]
  refine List.countP_congr fun b _ => ?_
  rw [Function.comp_apply, beq_true]

theorem header_ne
    {header : UInt8} (hbits : bitsOf header = notzero w) (hz : nonzeros w < 8) :
    header ≠ 0xff := by
  rintro rfl
  rw [← count_notzero, ← hbits] at hz
  exact Nat.lt_irrefl 8 hz

theorem update_store (b : UInt8) :
    update (store memory (des + 1) bytes) des b =
      store (update memory des b) (des + 1) bytes := by
  funext k
  by_cases hk : k = des
  · rw [hk, update_self, store, if_neg (by omega), update_self]
  · rw [update_of_ne hk, store, store, update_of_ne hk]

/-- The segment of a word that is not part of a run. -/
theorem packSeg_store
    (memory : Memory) (buffer : ℕ) (hlen : w.length = 8) (hz : nonzeros w < 8)
    (hrun : nonzeros w < 6 ∨ n = 0) (hroom : nonzeros w + 1 ≤ sz) :
    ∃ header, header ≠ 0xff ∧ bitsOf header = notzero w ∧
      (packSeg w memory buffer sz n).2 =
        store memory buffer (header :: w.filter (· ≠ 0)) := by
  have hbits := bitsOf_segLoop memory buffer sz hlen
  refine ⟨_, header_ne hbits hz, hbits, ?_⟩
  rw [packSeg_eq]
  dsimp only
  rw [if_neg (by omega), if_neg (by omega),
    segLoop_store (by dsimp only; omega), store_cons, update_store]

theorem scan_word
    {header : UInt8} (hheader : header ≠ 0xff)
    (hbits : bitsOf header = notzero w) :
    scan (header :: w.filter (· ≠ 0)) = ([w], .complete) := by
  have hfill := fill_notzero w []
  rw [List.append_nil, ← hbits] at hfill
  rw [scan_bits hheader hfill, scan]

theorem scan_ffSegment
    {ff : Memory} (hpos : 0 < n) (hn : (n + 7) / 8 ≤ 256) :
    scan (ffSegment ff n) =
      (wordsOf ((n + 7) / 8)
        (readBytes ff n ++ List.replicate ((n + 7) / 8 * 8 - n) 0),
        .complete) := by
  have hc :
      (UInt8.ofNat ((n + 7) / 8 * 8 / 8 - 1)).toNat + 1 = (n + 7) / 8 := by
    rw [UInt8.toNat_ofNat']
    omega
  have hlen : (readBytes ff n ++
      List.replicate ((n + 7) / 8 * 8 - n) (0 : UInt8)).length =
        (n + 7) / 8 * 8 := by
    rw [List.length_append, length_readBytes, List.length_replicate]
    omega
  rw [ffSegment, scan_run (Nat.le_of_eq (by rw [hc, hlen])), hc,
    List.drop_of_length_le (Nat.le_of_eq hlen), scan, List.append_nil]

end Segments

/-! ## Memory -/

section Contents

variable {memory memory' : Memory} {des n a : ℕ} {bytes ff w done : List UInt8}

theorem readBytes_congr (h : ∀ i < n, memory i = memory' i) :
    readBytes memory n = readBytes memory' n :=
  List.map_congr_left fun i hi => h i (List.mem_range.mp hi)

theorem readBytes_add (memory : Memory) (a n : ℕ) :
    readBytes memory (a + n) =
      readBytes memory a ++ readBytes (fun i => memory (a + i)) n := by
  rw [readBytes, List.range_add, List.map_append, List.map_map]
  rfl

/-- Bytes that are stored behind the first ones. -/
theorem readBytes_store
    (h : readBytes memory done.length = done) :
    readBytes (store memory done.length bytes) (done ++ bytes).length =
      done ++ bytes := by
  have hdone :
      readBytes (store memory done.length bytes) done.length = done := by
    refine (readBytes_congr fun i hi => ?_).trans h
    exact if_neg fun h => Nat.not_lt.mpr h.1 hi
  have hbytes : readBytes
      (fun i => store memory done.length bytes (done.length + i))
      bytes.length = bytes := by
    refine (readBytes_congr fun i hi => ?_).trans (readBytes_getD bytes)
    rw [store, if_pos ⟨Nat.le_add_right _ _, Nat.add_lt_add_left hi _⟩,
      Nat.add_sub_cancel_left]
  rw [List.length_append, readBytes_add, hdone, hbytes]

theorem store_comm (h : des + ff.length ≤ n) :
    store (store memory n bytes) des ff =
      store (store memory des ff) n bytes := by
  funext k
  rw [store, store, store, store]
  split_ifs with hff hbytes
  · omega
  · rfl
  · rfl
  · rfl

end Contents

/-! ## The input -/

section Input

variable {x : List UInt8} {behind : Memory} {k n i : ℕ}

/-- The bytes of `x` in memory. -/
def inMemory (x : List UInt8) (behind : Memory) : Memory :=
  fun k => x.getD k (behind k)

/-- `x` with zero bytes up to a multiple of eight. -/
def padded (x : List UInt8) : List UInt8 :=
  x ++ List.replicate ((x.length + 7) / 8 * 8 - x.length) 0

theorem length_padded (x : List UInt8) :
    (padded x).length = 8 * ((x.length + 7) / 8) := by
  rw [padded, List.length_append, List.length_replicate]
  omega

theorem readBytes_inMemory (behind : Memory) (h : i + n ≤ x.length) :
    readBytes (fun k => inMemory x behind (i + k)) n = (x.drop i).take n := by
  refine List.ext_getElem ?_ fun j hj hj' => ?_
  · rw [length_readBytes, List.length_take, List.length_drop]
    omega
  · rw [length_readBytes] at hj
    simp only [readBytes, List.getElem_map, List.getElem_range,
      List.getElem_take, List.getElem_drop]
    exact List.getD_eq_getElem _ _ (by omega)

theorem drop_padded (h : i ≤ x.length) :
    (padded x).drop i =
      x.drop i ++ List.replicate ((x.length + 7) / 8 * 8 - x.length) 0 :=
  List.drop_append_of_le_length h

theorem take_drop_padded (h : i + n ≤ x.length) :
    ((padded x).drop i).take n = (x.drop i).take n := by
  rw [drop_padded (by omega), List.take_append_of_le_length]
  rw [List.length_drop]
  omega

/-- The words do not depend on what is behind the input. -/
theorem word_inMemory (behind : Memory) (h : 8 * k < x.length) :
    word (inMemory x behind) x.length (8 * k) =
      ((padded x).drop (8 * k)).take 8 := by
  rcases Nat.lt_or_ge x.length (8 * k + 8) with hlt | hge
  · have hlen : (x.drop (8 * k)).length = x.length - 8 * k := List.length_drop
    rw [word_of_lt (by omega) hlt, readBytes_inMemory behind (by omega),
      ← hlen, List.take_length, drop_padded (by omega), List.take_of_length_le]
    · rw [show (x.length + 7) / 8 * 8 - x.length = 8 * k + 8 - x.length by
        omega]
    · rw [List.length_append, hlen, List.length_replicate]
      omega
  · rw [word_of_le hge, readBytes_inMemory behind hge, take_drop_padded hge]

/-- The words of the run that is open behind `k` words. -/
def openRun (x : List UInt8) : ℕ → ℕ
  | 0 => 0
  | k + 1 => nextRun (openRun x k) (nonzeros ((x.drop (8 * k)).take 8))

/-- A word with padding comes to 255 words of a run and is added to them. -/
def Overruns (x : List UInt8) : Prop :=
  x.length % 8 ≠ 0 ∧ openRun x (x.length / 8) = 255 ∧
    6 ≤ nonzeros (x.drop (8 * (x.length / 8)))

/-- Packing reads the bytes of `x` only, and unpacking leads back to `x`. -/
def RoundTrips (x : List UInt8) : Prop :=
  ∀ behind buffer,
    (sproto_pack (inMemory x behind) x.length (maxsz x.length) buffer).reads ≤
        x.length ∧
      ∃ packed, lpack (inMemory x behind) x.length buffer = some packed ∧
        ∀ bufsz : ℤ, (padded x).length ≤ bufsz →
          sproto_unpack packed bufsz = .ok ((padded x).length, padded x)

end Input

/-! ## Rounds -/

section Rounds

variable {x w done : List UInt8} {behind buffer src ff : Memory}
  {p : Packer} {j k n pos : ℕ} {bufsz : ℤ}

theorem Packer.writeRun_eq
    (src : Memory) (n : ℕ) (hroom : 0 ≤ bufsz)
    (hpos : p.ffSrcstart = .srcv pos) :
    p.writeRun src bufsz n =
      { p with
        memory :=
          store p.memory p.ffDesstart (ffSegment (fun k => src (pos + k)) n)
        reads := max p.reads (pos + n) } := by
  rw [writeRun, if_pos hroom, hpos]
  rfl

theorem nonzeros_word_of_lt
    (behind : Memory) (hk : 8 * k ≤ x.length) (hlt : x.length < 8 * k + 8) :
    nonzeros (word (inMemory x behind) x.length (8 * k)) =
      nonzeros (x.drop (8 * k)) := by
  have hlen : (x.drop (8 * k)).length = x.length - 8 * k := List.length_drop
  rw [word_of_lt hk hlt, readBytes_inMemory behind (by omega), ← hlen,
    List.take_length, nonzeros, List.countP_append, List.countP_replicate,
    if_neg (by decide), Nat.add_zero, nonzeros]

theorem ffN_rounds (behind buffer : Memory) (hk : k ≤ x.length / 8) :
    (rounds (inMemory x behind) x.length buffer k).ffN = openRun x k := by
  induction k with
  | zero => rfl
  | succ k ih =>
      obtain ⟨-, hffN, -⟩ := packRound_counts (inMemory x behind) x.length
        (8 * k) (rounds (inMemory x behind) x.length buffer k)
      rw [rounds, packLoop, ← rounds, hffN, ih (Nat.le_of_succ_le hk),
        word_inMemory behind (by omega), take_drop_padded (by omega), openRun]

/-- A complete string with the first `j` words of `x`. -/
structure Scans (x : List UInt8) (j : ℕ) (done : List UInt8) : Prop where
  complete : (scan done).2 = .complete
  flatten : (scan done).1.flatten = (padded x).take (8 * j)

theorem Scans.append
    {seg : List UInt8} {ws : List (List UInt8)} (h : Scans x j done)
    (hseg : scan seg = (ws, .complete))
    (hws : ws.flatten = ((padded x).drop (8 * j)).take (8 * n)) :
    Scans x (j + n) (done ++ seg) := by
  have hscan := scan_append h.complete seg
  rw [hseg] at hscan
  refine ⟨congrArg Prod.snd hscan, ?_⟩
  rw [hscan]
  dsimp only
  rw [List.flatten_append, h.flatten, hws, Nat.mul_add, List.take_add]

/-- A run that is copied from the input. -/
theorem Scans.run
    (h : Scans x j done) (hpos : 0 < n) (hn : (n + 7) / 8 ≤ 256)
    (hff : readBytes ff n ++ List.replicate ((n + 7) / 8 * 8 - n) 0 =
      ((padded x).drop (8 * j)).take (8 * ((n + 7) / 8))) :
    Scans x (j + (n + 7) / 8) (done ++ ffSegment ff n) := by
  refine h.append (scan_ffSegment hpos hn) ?_
  rw [flatten_wordsOf, hff, List.take_of_length_le]
  rw [List.length_take]
  omega

/-- What lies in front of the open run is complete, and has the words in front
of it. -/
structure Packed (x : List UInt8) (k : ℕ) (p : Packer) (done : List UInt8) :
    Prop where
  contents : readBytes p.memory done.length = done
  scans : Scans x (k - p.ffN) done
  size : p.ffN = 0 → p.size = done.length
  start : 0 < p.ffN → p.ffDesstart = done.length
  reads : p.reads ≤ x.length

/-- Words of the input that are copied as a run. -/
theorem Scans.words
    (h : Scans x j done) (behind : Memory) (pos n : ℕ) (hpos : pos = 8 * j)
    (hn : 0 < n) (hn' : n ≤ 256) (hle : pos + n * 8 ≤ x.length) :
    Scans x (j + n)
      (done ++ ffSegment (fun k => inMemory x behind (pos + k)) (n * 8)) := by
  have hdiv : (n * 8 + 7) / 8 = n := by omega
  have hrun := h.run (n := n * 8)
    (by omega) (by omega) (by
      rw [hdiv, Nat.sub_self, List.replicate_zero, List.append_nil,
        readBytes_inMemory behind hle, ← hpos, Nat.mul_comm 8,
        take_drop_padded hle])
  rw [hdiv] at hrun
  exact hrun

/-- `pack_seg` writes behind what is complete. -/
theorem Packed.seg
    (h : Packed x k p done) (hle : done.length ≤ p.size) :
    readBytes (p.seg src n j).memory done.length = done := by
  refine (readBytes_congr fun i hi => ?_).trans h.contents
  exact packSeg_memory (.inl (Nat.lt_of_lt_of_le hi hle))

theorem Packed.reads_seg (h : Packed x k p done) (src : Memory) (j : ℕ) :
    (p.seg src x.length j).reads ≤ x.length :=
  Nat.max_le.mpr ⟨h.reads, Nat.min_le_right _ _⟩

theorem Packed.length_le
    (h : Packed x k p done) (hreserved : Reserved x.length k buffer p) :
    done.length ≤ p.size := by
  rcases Nat.eq_zero_or_pos p.ffN with hzero | hpos
  · exact Nat.le_of_eq (h.size hzero).symm
  · have hstart := h.start hpos
    have hrun := hreserved.run hpos
    omega

/-- The segment of a word apart. -/
theorem Scans.apart
    (h : Scans x k done) (behind memory : Memory) (des : ℕ)
    (hk : 8 * k < x.length)
    (hz : nonzeros (word (inMemory x behind) x.length (8 * k)) < 8)
    (hrun : nonzeros (word (inMemory x behind) x.length (8 * k)) < 6 ∨ n = 0)
    (hroom : nonzeros (word (inMemory x behind) x.length (8 * k)) + 1 ≤
      bufsz) :
    ∃ seg : List UInt8,
      seg.length =
        nonzeros (word (inMemory x behind) x.length (8 * k)) + 1 ∧
      Scans x (k + 1) (done ++ seg) ∧
      (packSeg (word (inMemory x behind) x.length (8 * k)) memory des bufsz
        n).2 = store memory des seg := by
  obtain ⟨header, hheader, hbits, hmemory⟩ :=
    packSeg_store memory des (length_word _ _ _) hz hrun hroom
  refine ⟨_, ?_, h.append (scan_word hheader hbits) ?_, hmemory⟩
  · rw [List.length_cons, nonzeros, List.countP_eq_length_filter]
  · rw [List.flatten_cons, List.flatten_nil, List.append_nil,
      word_inMemory behind hk]

/-- A round keeps what is complete, unless it has to copy a word with
padding. -/
theorem Packed.round
    (h : Packed x k p done) (hreserved : Reserved x.length k buffer p)
    (hffN : p.ffN < 256) (hk : 8 * k < x.length)
    (hroom : (cost p.ffN
      (nonzeros (word (inMemory x behind) x.length (8 * k))) : ℤ) ≤ p.bufsz)
    (hgood : p.ffN = 255 →
      6 ≤ nonzeros (word (inMemory x behind) x.length (8 * k)) →
        8 * k + 8 ≤ x.length) :
    ∃ done', Packed x (k + 1)
      (packRound (inMemory x behind) x.length (8 * k) p) done' := by
  have hle := h.length_le hreserved
  have hreads := h.reads_seg (inMemory x behind) (8 * k)
  rcases packRound_cases (inMemory x behind) x.length (8 * k) p with
    ⟨hn, hz, hr⟩ | ⟨hn, hz, hr⟩ | ⟨hn, hz, hlast, hr⟩ |
      ⟨hn, hz, hlast, hr⟩ | ⟨hn, hz, hr⟩
  · rw [hn, cost_of_plain hz] at hroom
    have hscans := h.scans
    rw [hn, Nat.sub_zero] at hscans
    obtain ⟨seg, hseg, hscans', hmemory⟩ :=
      hscans.apart behind p.memory p.size hk hz (.inr hn) hroom
    have hsize := h.size hn
    rw [hr]
    refine ⟨done ++ seg, ?_, ?_, fun _ => ?_,
      fun hpos => absurd hn (Nat.ne_of_gt hpos), hreads⟩
    · change readBytes (packSeg _ p.memory p.size p.bufsz p.ffN).2 _ = _
      rw [hmemory, hsize]
      exact readBytes_store h.contents
    · change Scans x (k + 1 - p.ffN) _
      rw [hn]
      exact hscans'
    · rw [List.length_append, hseg, ← hsize]
  · rw [hr]
    refine ⟨done, h.seg hle, ?_, fun h => absurd h Nat.one_ne_zero,
      fun _ => h.size hn, hreads⟩
    have hscans := h.scans
    rw [hn] at hscans
    exact hscans
  · rw [hr]
    refine ⟨done, h.seg hle, ?_, fun h => absurd h (Nat.succ_ne_zero _),
      fun _ => h.start hn, hreads⟩
    dsimp only
    rw [Nat.add_sub_add_right]
    exact h.scans
  · obtain ⟨pos, hpos, hopen, -⟩ := hreserved.start hn
    have hstart := h.start hn
    have hrun := hreserved.run hn
    have hfull := hgood (by omega) hz
    rw [cost_of_run hn hz (nonzeros_word_le _ _ _)] at hroom
    have hscans := h.scans.words behind pos 256 (by omega)
      (by decide) (Nat.le_refl 256) (by omega)
    rw [show k - p.ffN + 256 = k + 1 by omega] at hscans
    rw [hr, Packer.writeRun_eq (p := p.seg _ _ _) _ _ (by omega) hpos]
    refine ⟨_, ?_, hscans, fun _ => ?_,
      fun hpos => absurd hpos (Nat.lt_irrefl 0),
      Nat.max_le.mpr ⟨hreads, by omega⟩⟩
    · change readBytes (store _ p.ffDesstart _) _ = _
      rw [hstart]
      exact readBytes_store (h.seg hle)
    · rw [List.length_append, length_ffSegment]
      change p.size + 8 = _
      omega
  · obtain ⟨pos, hpos, hopen, -⟩ := hreserved.start hn
    have hstart := h.start hn
    have hrun := hreserved.run hn
    rw [cost_of_break hz] at hroom
    have hscans := h.scans.words behind pos p.ffN (by omega)
      hn (by omega) (by omega)
    rw [Nat.sub_add_cancel (by omega)] at hscans
    obtain ⟨seg, hseg, hscans', hmemory⟩ :=
      hscans.apart (n := p.ffN) behind p.memory p.size hk (by omega) (.inl hz)
        hroom
    have hsize : p.size = (done ++ ffSegment
        (fun k => inMemory x behind (pos + k)) (p.ffN * 8)).length := by
      rw [List.length_append, length_ffSegment]
      omega
    rw [hr, Packer.writeRun_eq (p := p.seg _ _ _) _ _ (by omega) hpos]
    refine ⟨_, ?_, hscans', fun _ => ?_, fun hpos => absurd hpos
      (Nat.lt_irrefl 0), Nat.max_le.mpr ⟨hreads, by omega⟩⟩
    · change readBytes (store (packSeg _ p.memory p.size p.bufsz p.ffN).2
        p.ffDesstart _) _ = _
      have hbehind : done.length + (ffSegment
          (fun k => inMemory x behind (pos + k)) (p.ffN * 8)).length =
            p.size := by
        rw [hsize, List.length_append]
      rw [hmemory, hstart, store_comm (Nat.le_of_eq hbehind), hsize]
      exact readBytes_store (readBytes_store h.contents)
    · rw [List.length_append, hseg, ← hsize]

/-- The rounds that come to a word with padding do not add it to 255 others. -/
theorem le_of_not_overruns
    (hgood : ¬Overruns x) (hk : 8 * k < x.length)
    (hffN : (rounds (inMemory x behind) x.length buffer k).ffN = 255)
    (hz : 6 ≤ nonzeros (word (inMemory x behind) x.length (8 * k))) :
    8 * k + 8 ≤ x.length := by
  refine Nat.le_of_not_lt fun hlt => hgood ?_
  have hdiv : x.length / 8 = k := by omega
  rw [ffN_rounds behind buffer (Nat.le_of_eq hdiv.symm)] at hffN
  rw [nonzeros_word_of_lt behind (Nat.le_of_lt hk) hlt] at hz
  refine ⟨?_, ?_, ?_⟩
  · have hmod := nonzeros_le_length (x.drop (8 * k))
    rw [List.length_drop] at hmod
    omega
  · rw [hdiv]
    exact hffN
  · rw [hdiv]
    exact hz

theorem packed_rounds
    (behind buffer : Memory) (hgood : ¬Overruns x)
    (hk : k ≤ (x.length + 7) / 8) :
    ∃ done, Packed x k (rounds (inMemory x behind) x.length buffer k) done := by
  induction k with
  | zero =>
      have hnone : scan [] = ([], .complete) := by rw [scan]
      refine ⟨[], rfl, ⟨congrArg Prod.snd hnone, ?_⟩, fun _ => rfl,
        fun h => absurd h (Nat.lt_irrefl 0), Nat.zero_le _⟩
      rw [hnone]
      rfl
  | succ k ih =>
      have hle := Nat.le_of_succ_le hk
      obtain ⟨done, hdone⟩ := ih hle
      have hsize := size_rounds_le (inMemory x behind) buffer hk
      have hbufsz := bufsz_rounds (inMemory x behind) x.length buffer k
      obtain ⟨hcount, -⟩ := packRound_counts (inMemory x behind) x.length
        (8 * k) (rounds (inMemory x behind) x.length buffer k)
      rw [rounds, packLoop, ← rounds, hcount] at hsize
      exact hdone.round (reserved_rounds (inMemory x behind) buffer hle)
        (bounded_rounds (inMemory x behind) x.length buffer k).1 (by omega)
        (by omega) (le_of_not_overruns hgood (by omega))

/-- The run that is open at the end is copied. -/
theorem Packed.writeRun
    (h : Packed x k p done) (hreserved : Reserved x.length k buffer p)
    (hopen : 0 < p.ffN) (hpos : p.ffSrcstart = .srcv pos) (hbufsz : 0 ≤ p.bufsz)
    (hn : (n + 7) / 8 = p.ffN) (hle : pos + n ≤ x.length) :
    let r := p.writeRun (inMemory x behind) p.bufsz n
    let done' := done ++ ffSegment (fun k => inMemory x behind (pos + k)) n
    readBytes r.memory done'.length = done' ∧ r.size = done'.length ∧
      r.reads ≤ x.length := by
  have hrun := hreserved.run hopen
  have hstart := h.start hopen
  intro r done'
  have hr := Packer.writeRun_eq (inMemory x behind) n hbufsz hpos
  rw [show r = _ from hr]
  refine ⟨?_, ?_, Nat.max_le.mpr ⟨h.reads, hle⟩⟩
  · change readBytes (store _ p.ffDesstart _) _ = _
    rw [hstart]
    exact readBytes_store h.contents
  · rw [List.length_append, length_ffSegment]
    change p.size = _
    omega

theorem packed_packEnd
    (behind : Memory) (h : Packed x ((x.length + 7) / 8) p done)
    (hreserved : Reserved x.length ((x.length + 7) / 8) buffer p)
    (hffN : p.ffN < 256) (hbufsz : 0 ≤ p.bufsz) :
    ∃ done', Scans x ((x.length + 7) / 8) done' ∧
      readBytes (packEnd (inMemory x behind) x.length p).memory done'.length =
        done' ∧
      (packEnd (inMemory x behind) x.length p).size = done'.length ∧
      (packEnd (inMemory x behind) x.length p).reads ≤ x.length := by
  have hscans := h.scans
  rw [packEnd]
  split_ifs with hone hmore
  · obtain ⟨pos, hpos, hopen, hle⟩ := hreserved.start (by omega)
    have hscans' := hscans.words behind pos 1 (by omega)
      (by decide) (by decide) (by omega)
    rw [hone, Nat.sub_add_cancel (by omega)] at hscans'
    exact ⟨_, hscans', h.writeRun hreserved (by omega) hpos hbufsz hone.symm
      hle⟩
  · obtain ⟨pos, hpos, hopen, hle⟩ := hreserved.start (by omega)
    have hn : (x.length - pos + 7) / 8 = p.ffN := by omega
    have hdrop : (x.drop pos).length = x.length - pos := List.length_drop
    have hff : readBytes (fun k => inMemory x behind (pos + k)) (x.length - pos)
        ++ List.replicate ((x.length - pos + 7) / 8 * 8 - (x.length - pos)) 0 =
          ((padded x).drop (8 * ((x.length + 7) / 8 - p.ffN))).take
            (8 * ((x.length - pos + 7) / 8)) := by
      rw [readBytes_inMemory behind (by omega), ← hdrop, List.take_length,
        show 8 * ((x.length + 7) / 8 - p.ffN) = pos by omega,
        drop_padded (by omega), List.take_of_length_le]
      · rw [show (x.length + 7) / 8 * 8 - x.length =
          ((x.drop pos).length + 7) / 8 * 8 - (x.drop pos).length by omega]
      · rw [List.length_append, List.length_replicate]
        omega
    have hscans' := hscans.run (by omega) (by omega) hff
    rw [hn, Nat.sub_add_cancel (by omega)] at hscans'
    rw [hpos]
    exact ⟨_, hscans', h.writeRun hreserved (by omega) hpos hbufsz hn
      (by omega)⟩
  · have hzero : p.ffN = 0 := by omega
    rw [hzero] at hscans
    exact ⟨done, hscans, h.contents, h.size hzero, h.reads⟩

theorem reads_of_overruns
    (behind buffer : Memory) (hbad : Overruns x) :
    x.length <
      (sproto_pack (inMemory x behind) x.length (maxsz x.length) buffer).reads
      := by
  obtain ⟨hmod, hopen, hz⟩ := hbad
  have hk : (x.length + 7) / 8 = x.length / 8 + 1 := by omega
  have hffN := ffN_rounds behind buffer (Nat.le_refl (x.length / 8))
  have hsize := size_rounds_le (inMemory x behind) buffer
    (Nat.le_refl ((x.length + 7) / 8))
  have hbufsz := bufsz_rounds (inMemory x behind) x.length buffer
    ((x.length + 7) / 8)
  have hreserved := reserved_rounds (inMemory x behind) buffer
    (show x.length / 8 ≤ (x.length + 7) / 8 by omega)
  rw [← nonzeros_word_of_lt behind (by omega) (by omega)] at hz
  rw [hk, rounds, packLoop, ← rounds] at hsize hbufsz
  rw [sproto_pack_eq, hk, rounds, packLoop, ← rounds]
  rcases packRound_cases (inMemory x behind) x.length (8 * (x.length / 8))
    (rounds (inMemory x behind) x.length buffer (x.length / 8)) with
    ⟨hn, -, hr⟩ | ⟨hn, -, hr⟩ | ⟨-, -, hlast, hr⟩ | ⟨hn, -, -, hr⟩ |
      ⟨-, hz', hr⟩
  · omega
  · omega
  · omega
  · obtain ⟨pos, hpos, hrun, -⟩ := hreserved.start hn
    rw [hr] at hsize hbufsz ⊢
    dsimp only at hsize hbufsz
    rw [packEnd_of_zero rfl,
      Packer.writeRun_eq (p := Packer.seg _ _ _ _) _ _ (by omega) hpos]
    refine Nat.lt_of_lt_of_le ?_ (Nat.le_max_right _ _)
    omega
  · omega

/-- What `lpack` returns is complete and has the words of the input. -/
theorem lpack_scan
    (behind buffer : Memory) (hgood : ¬Overruns x) :
    (sproto_pack (inMemory x behind) x.length (maxsz x.length) buffer).reads ≤
        x.length ∧
      ∃ packed, lpack (inMemory x behind) x.length buffer = some packed ∧
        (scan packed).2 = .complete ∧ (scan packed).1.flatten = padded x := by
  obtain ⟨done, hdone⟩ :=
    packed_rounds behind buffer hgood (Nat.le_refl ((x.length + 7) / 8))
  have hrounds := size_rounds_le (inMemory x behind) buffer
    (Nat.le_refl ((x.length + 7) / 8))
  have hbufsz := bufsz_rounds (inMemory x behind) x.length buffer
    ((x.length + 7) / 8)
  obtain ⟨packed, hscans, hcontents, hsize, hreads⟩ :=
    packed_packEnd behind hdone
      (reserved_rounds (inMemory x behind) buffer (Nat.le_refl _))
      (bounded_rounds (inMemory x behind) x.length buffer _).1 (by omega)
  refine ⟨hreads, packed, ?_, hscans.complete, ?_⟩
  · rw [lpack, sproto_pack_eq, if_neg, hsize, hcontents]
    rw [packEnd_size]
    exact Nat.not_lt.mpr hrounds
  · rw [hscans.flatten, ← length_padded, List.take_length]

theorem measure_of_flatten
    {packed : List UInt8} (h : (scan packed).1.flatten = padded x) :
    measure packed = (padded x).length := by
  rw [← length_flatten_scan, h]

theorem length_padded_lt (hlen : x.length < 0x40000000) :
    (padded x).length < 0x80000000 := by
  rw [length_padded]
  omega

end Rounds

/-- Unpacking what was packed leads to the input with zero bytes behind it, and
nothing behind the input is read, unless 255 words of a run are followed by a
word with padding that is added to them. -/
theorem roundTrips_iff
    {x : List UInt8} (hlen : x.length < 0x40000000) :
    RoundTrips x ↔ ¬Overruns x := by
  constructor
  · intro h hbad
    have hreads := (h (fun _ => 0) fun _ => 0).1
    exact Nat.not_lt.mpr hreads (reads_of_overruns _ _ hbad)
  · intro hgood behind buffer
    obtain ⟨hreads, packed, hpacked, htail, hflatten⟩ :=
      lpack_scan behind buffer hgood
    have hmeasure := measure_of_flatten hflatten
    have hlt := length_padded_lt hlen
    refine ⟨hreads, packed, hpacked, fun bufsz hbufsz => ?_⟩
    obtain ⟨out, hunpack, hout⟩ :=
      sproto_unpack_of_complete bufsz htail (by omega)
    rw [hmeasure] at hunpack hout
    rw [hunpack, hout hbufsz, hflatten]

theorem roundTrips_iff_of_three :
    ([1, 0, 2] : List UInt8).length < 0x40000000 ∧
      (RoundTrips [1, 0, 2] ↔ ¬Overruns [1, 0, 2]) :=
  ⟨by decide, roundTrips_iff (by decide)⟩

theorem nonzeros_replicate (n : ℕ) : nonzeros (List.replicate n 1) = n :=
  List.countP_replicate.trans (if_pos rfl)

theorem openRun_replicate
    {n k : ℕ} (hn : 8 * k ≤ n) (hk : k < 256) :
    openRun (List.replicate n 1) k = k := by
  induction k with
  | zero => rfl
  | succ k ih =>
      rw [openRun, ih (by omega) (by omega), List.drop_replicate,
        List.take_replicate, nonzeros_replicate, nextRun, if_pos (by omega),
        if_neg (by omega)]

/-- 2046 bytes that are not zero are 255 words and six bytes. -/
theorem not_roundTrips_of_overrun :
    Overruns (List.replicate 2046 1) ∧ ¬RoundTrips (List.replicate 2046 1) := by
  have hlen : (List.replicate 2046 (1 : UInt8)).length = 2046 :=
    List.length_replicate
  have hbad : Overruns (List.replicate 2046 1) := by
    rw [Overruns, hlen, openRun_replicate (by decide) (by decide),
      List.drop_replicate, nonzeros_replicate]
    decide
  exact ⟨hbad, fun h => Nat.not_lt.mpr (h (fun _ => 0) fun _ => 0).1
    (reads_of_overruns _ _ hbad)⟩

end SkynetServer.SprotoPack
