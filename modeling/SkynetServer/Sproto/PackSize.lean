import Mathlib.Data.List.GetD
import Mathlib.Tactic.SplitIfs
import SkynetServer.Sproto.Pack

/-!
# The size of packed bytes

A word takes one byte more than it has bytes that are not zero, but the first
word of a run takes two more than its eight bytes.  The word that ends a run
takes at most six bytes, so it pays for the run.  What is not paid for are the
runs of 256 words, and the last run.
-/

namespace SkynetServer.SprotoPack

open Function

/-! ## `pack_seg` -/

/-- The number of bytes that are not zero. -/
def nonzeros (w : List UInt8) : ℕ := w.countP (· ≠ 0)

theorem nonzeros_le_length (w : List UInt8) : nonzeros w ≤ w.length :=
  List.countP_le_length

section Segments

variable {i n k : ℕ} {src w : List UInt8} {s : Seg} {memory : Memory}
  {buffer : ℕ} {sz : ℤ}

theorem segLoop_notzero (i : ℕ) (src : List UInt8) (s : Seg) :
    (segLoop i src s).notzero = s.notzero + nonzeros src := by
  induction src generalizing i s with
  | nil => rfl
  | cons b src ih =>
      rw [segLoop, ih, nonzeros, nonzeros]
      by_cases hb : b = 0
      · rw [if_neg (not_not.mpr hb), List.countP_cons_of_neg]
        simpa using hb
      · rw [if_pos hb, List.countP_cons_of_pos (by simpa using hb)]
        dsimp only
        split
        · exact Nat.succ_add_eq_add_succ ..
        · exact Nat.succ_add_eq_add_succ ..

/-- What `pack_seg` returns for a word with `z` bytes that are not zero, behind
`n` words of a run. -/
def cost (n z : ℕ) : ℕ :=
  if z = 8 ∨ (z = 7 ∨ z = 6) ∧ n > 0 then if n > 0 then 8 else 10
  else z + 1

/-- The words of the run behind that word. -/
def nextRun (n z : ℕ) : ℕ :=
  if z = 8 ∨ (z = 7 ∨ z = 6) ∧ n > 0 then if n + 1 = 256 then 0 else n + 1
  else 0

/-- `pack_seg` writes the header unless it adds to a run. -/
theorem packSeg_eq (w : List UInt8) (memory : Memory) (buffer : ℕ) (sz : ℤ)
    (n : ℕ) :
    packSeg w memory buffer sz n =
      (cost n (nonzeros w),
        let s := segLoop 0 w ⟨0, 0, buffer + 1, sz - 1, memory⟩
        if nonzeros w = 8 ∨ (nonzeros w = 7 ∨ nonzeros w = 6) ∧ n > 0 then
          s.memory
        else if sz - 1 < 0 then s.memory
        else update s.memory buffer (.ofNat s.header)) := by
  rw [packSeg, segLoop_notzero]
  dsimp only
  rw [Nat.zero_add, cost]
  by_cases hrun : (nonzeros w = 7 ∨ nonzeros w = 6) ∧ n > 0
  · rw [if_pos hrun, if_pos rfl, if_pos (Or.inr hrun), if_pos (Or.inr hrun)]
  · rw [if_neg hrun]
    by_cases hfull : nonzeros w = 8
    · rw [if_pos hfull, if_pos (Or.inl hfull), if_pos (Or.inl hfull)]
    · have hneither := not_or.mpr ⟨hfull, hrun⟩
      rw [if_neg hfull, if_neg hneither, if_neg hneither]

theorem segLoop_memory
    (hk : k < s.buffer ∨ s.buffer + s.sz ≤ k) :
    (segLoop i src s).memory k = s.memory k := by
  induction src generalizing i s with
  | nil => rfl
  | cons b src ih =>
      rw [segLoop]
      split
      · dsimp only
        split
        · rename_i hroom
          rw [ih]
          · refine update_of_ne ?_ _ _
            omega
          · dsimp only
            omega
        · exact ih hk
      · exact ih hk

/-- `pack_seg` keeps to its `sz` bytes. -/
theorem packSeg_memory
    (hk : k < buffer ∨ buffer + sz ≤ k) :
    (packSeg w memory buffer sz n).2 k = memory k := by
  have hloop : (segLoop 0 w ⟨0, 0, buffer + 1, sz - 1, memory⟩).memory k =
      memory k := by
    refine segLoop_memory ?_
    dsimp only
    omega
  rw [packSeg_eq]
  dsimp only
  split_ifs with hrun hroom
  · exact hloop
  · exact hloop
  · rw [update_of_ne (by omega), hloop]

end Segments

/-! ## Rounds -/

section Rounds

variable {src : Memory} {srcsz i k n z : ℕ} {p : Packer}

/-- The word from `i` on. -/
def word (src : Memory) (srcsz i : ℕ) : List UInt8 :=
  readBytes ((source src srcsz i).memory src) 8

@[simp] theorem length_readBytes (src : Memory) (n : ℕ) :
    (readBytes src n).length = n := by
  rw [readBytes, List.length_map, List.length_range]

theorem length_word (src : Memory) (srcsz i : ℕ) :
    (word src srcsz i).length = 8 :=
  length_readBytes _ _

theorem readBytes_getD (bytes : List UInt8) :
    readBytes (fun k => bytes.getD k 0) bytes.length = bytes := by
  refine List.ext_getElem (length_readBytes _ _) fun k hk hk' => ?_
  simp only [readBytes, List.getElem_map, List.getElem_range]
  exact List.getD_eq_getElem _ _ hk'

theorem word_of_le (h : i + 8 ≤ srcsz) :
    word src srcsz i = readBytes (fun k => src (i + k)) 8 := by
  rw [word, source, if_neg (by omega)]
  rfl

/-- The last word has padding. -/
theorem word_of_lt (hi : i ≤ srcsz) (h : srcsz < i + 8) :
    word src srcsz i =
      readBytes (fun k => src (i + k)) (srcsz - i) ++
        List.replicate (i + 8 - srcsz) 0 := by
  have hlen : (readBytes (fun k => src (i + k)) (8 - (i + 8 - srcsz)) ++
      List.replicate (i + 8 - srcsz) 0).length = 8 := by
    rw [List.length_append, length_readBytes, List.length_replicate]
    omega
  have hword := readBytes_getD
    (readBytes (fun k => src (i + k)) (8 - (i + 8 - srcsz)) ++
      List.replicate (i + 8 - srcsz) 0)
  rw [hlen] at hword
  rw [word, source, if_pos (by omega), ← show 8 - (i + 8 - srcsz) = srcsz - i
    by omega]
  exact hword

theorem nonzeros_word_le_sub
    (src : Memory) (hi : i ≤ srcsz) (h : srcsz < i + 8) :
    nonzeros (word src srcsz i) ≤ srcsz - i := by
  rw [word_of_lt hi h, nonzeros, List.countP_append, List.countP_replicate,
    if_neg (by decide), Nat.add_zero]
  exact Nat.le_trans List.countP_le_length
    (Nat.le_of_eq (length_readBytes _ _))

/-- The first word of a run has no padding. -/
theorem le_of_nonzeros
    (hi : i ≤ srcsz) (h : nonzeros (word src srcsz i) = 8) :
    i + 8 ≤ srcsz := by
  refine Nat.le_of_not_lt fun hlt => ?_
  have hz := nonzeros_word_le_sub src hi hlt
  omega

theorem source_of_le (h : i + 8 ≤ srcsz) : source src srcsz i = .srcv i :=
  if_neg (by omega)

theorem nonzeros_word_le (src : Memory) (srcsz i : ℕ) :
    nonzeros (word src srcsz i) ≤ 8 :=
  Nat.le_trans (nonzeros_le_length _) (Nat.le_of_eq (length_readBytes _ _))

/-- The state behind `pack_seg`. -/
def Packer.seg (p : Packer) (src : Memory) (srcsz i : ℕ) : Packer :=
  { p with
    memory :=
      (packSeg (word src srcsz i) p.memory p.size p.bufsz p.ffN).2
    reads := max p.reads (min (i + 8) srcsz) }

/-- `pack_seg` adds to a run that is open, or does not. -/
theorem cost_of_run (hn : 0 < n) (hz : 6 ≤ z) (hz' : z ≤ 8) :
    cost n z = 8 := by
  rw [cost, if_pos (by omega), if_pos hn]

theorem cost_of_break (hz : z < 6) : cost n z = z + 1 := by
  rw [cost, if_neg (by omega)]

theorem cost_of_first : cost 0 8 = 10 := rfl

theorem cost_of_plain (hz : z < 8) : cost 0 z = z + 1 := by
  rw [cost, if_neg (by omega)]

/-- The rounds of `sproto_pack`: a word apart, the first one of a run, another
one, the last one of 256, and one that ends a run. -/
theorem packRound_cases (src : Memory) (srcsz i : ℕ) (p : Packer) :
    let z := nonzeros (word src srcsz i)
    let q := p.seg src srcsz i
    let r := packRound src srcsz i p
    (p.ffN = 0 ∧ z < 8 ∧
      r = { q with
        bufsz := p.bufsz - (z + 1 : ℕ)
        size := p.size + (z + 1) }) ∨
    (p.ffN = 0 ∧ z = 8 ∧
      r = { q with
        ffSrcstart := source src srcsz i
        ffDesstart := p.size
        ffN := 1
        bufsz := p.bufsz - (10 : ℕ)
        size := p.size + 10 }) ∨
    (0 < p.ffN ∧ 6 ≤ z ∧ p.ffN + 1 ≠ 256 ∧
      r = { q with
        ffN := p.ffN + 1
        bufsz := p.bufsz - (8 : ℕ)
        size := p.size + 8 }) ∨
    (0 < p.ffN ∧ 6 ≤ z ∧ p.ffN + 1 = 256 ∧
      r = { q.writeRun src (p.bufsz - (8 : ℕ)) (256 * 8) with
        ffN := 0
        bufsz := p.bufsz - (8 : ℕ)
        size := p.size + 8 }) ∨
    (0 < p.ffN ∧ z < 6 ∧
      r = { q.writeRun src (p.bufsz - (z + 1 : ℕ)) (p.ffN * 8) with
        ffN := 0
        bufsz := p.bufsz - (z + 1 : ℕ)
        size := p.size + (z + 1) }) := by
  intro z q r
  have hz : z ≤ 8 := nonzeros_word_le src srcsz i
  have hr : r = q.next src (source src srcsz i) (cost p.ffN z) := calc
    r = q.next src (source src srcsz i)
        (packSeg (word src srcsz i) p.memory p.size p.bufsz p.ffN).1 := rfl
    _ = q.next src (source src srcsz i) (cost p.ffN z) := by
      rw [packSeg_eq]
  have hffN : q.ffN = p.ffN := rfl
  have hbufsz : q.bufsz = p.bufsz := rfl
  rcases Nat.eq_zero_or_pos p.ffN with hzero | hpos
  · rw [hzero] at hr
    rcases Nat.lt_or_ge z 8 with hlt | hge
    · left
      rw [cost_of_plain hlt, Packer.next, if_neg (by omega), hffN, hzero,
        if_neg fun h => Nat.lt_irrefl 0 h.2, if_neg (Nat.lt_irrefl 0)] at hr
      exact ⟨hzero, hlt, hr⟩
    · right; left
      have hfull : z = 8 := Nat.le_antisymm hz hge
      rw [hfull, cost_of_first, Packer.next, if_pos rfl] at hr
      exact ⟨hzero, hfull, hr⟩
  · right; right
    rcases Nat.lt_or_ge z 6 with hlt | hge
    · right; right
      rw [cost_of_break hlt, Packer.next, if_neg (by omega),
        if_neg (by omega), hffN, hbufsz, if_pos hpos] at hr
      refine ⟨hpos, hlt, hr.trans ?_⟩
      rw [Packer.writeRun]
      split <;> rfl
    · rw [cost_of_run hpos hge hz, Packer.next, if_neg (by decide), hffN,
        hbufsz, if_pos ⟨rfl, hpos⟩] at hr
      by_cases hlast : p.ffN + 1 = 256
      · right; left
        rw [if_pos hlast] at hr
        refine ⟨hpos, hge, hlast, hr.trans ?_⟩
        rw [Packer.writeRun]
        split <;> rfl
      · left
        rw [if_neg hlast] at hr
        exact ⟨hpos, hge, hlast, hr⟩

/-- What a round counts. -/
theorem packRound_counts (src : Memory) (srcsz i : ℕ) (p : Packer) :
    let z := nonzeros (word src srcsz i)
    let r := packRound src srcsz i p
    r.size = p.size + cost p.ffN z ∧ r.ffN = nextRun p.ffN z ∧
      r.bufsz = p.bufsz - cost p.ffN z := by
  intro z r
  have hz : z ≤ 8 := nonzeros_word_le src srcsz i
  rcases packRound_cases src srcsz i p with
    ⟨hn, hz', hr⟩ | ⟨hn, hz', hr⟩ | ⟨hn, hz', hlast, hr⟩ |
      ⟨hn, hz', hlast, hr⟩ | ⟨hn, hz', hr⟩
  · rw [show r = _ from hr, hn, cost_of_plain hz', nextRun, if_neg (by omega)]
    exact ⟨rfl, hn, rfl⟩
  · rw [show r = _ from hr, hn, show z = 8 from hz']
    exact ⟨rfl, rfl, rfl⟩
  · rw [show r = _ from hr, cost_of_run hn hz' hz, nextRun, if_pos (by omega),
      if_neg hlast]
    exact ⟨rfl, rfl, rfl⟩
  · rw [show r = _ from hr, cost_of_run hn hz' hz, nextRun, if_pos (by omega),
      if_pos hlast]
    exact ⟨rfl, rfl, rfl⟩
  · rw [show r = _ from hr, cost_of_break hz', nextRun, if_neg (by omega)]
    exact ⟨rfl, rfl, rfl⟩

end Rounds

/-! ## What is not paid for -/

section Bound

variable {k n z m size : ℕ}

/-- The bound for `k` whole words: two bytes for each run of 256 words, and two
for the run of `n` words that is open. -/
def Bounded (k n size : ℕ) : Prop :=
  n < 256 ∧ ∃ f, 256 * f + n ≤ k ∧ size ≤ 8 * k + 2 * f + 2 * min n 1

theorem Bounded.next (h : Bounded k n size) (hz : z ≤ 8) :
    Bounded (k + 1) (nextRun n z) (size + cost n z) := by
  obtain ⟨hn, f, hk, hsize⟩ := h
  rw [nextRun, cost]
  split_ifs with hrun hlast hopen hopen
  · -- nothing pays for the run
    exact ⟨by decide, f + 1, by omega, by omega⟩
  · omega
  · exact ⟨by omega, f, by omega, by omega⟩
  · exact ⟨by omega, f, by omega, by omega⟩
  · -- the word pays for the run
    exact ⟨by decide, f, by omega, by omega⟩

theorem Bounded.le_maxsz (h : Bounded k n size) : size ≤ maxsz (8 * k) := by
  obtain ⟨hn, f, hk, hsize⟩ := h
  rw [maxsz]
  omega

/-- The last word has `m` bytes. -/
theorem Bounded.last_le_maxsz
    (h : Bounded k n size) (hm : 0 < m) (hm' : m < 8) (hz : z ≤ m) :
    size + cost n z ≤ maxsz (8 * k + m) := by
  obtain ⟨hn, f, hk, hsize⟩ := h
  rw [maxsz, cost]
  split_ifs with hrun hopen
  · omega
  · omega
  · omega

end Bound

/-! ## The buffer of `lpack` -/

section Buffer

variable {src : Memory} {sz k : ℕ} {p : Packer} {buffer : Memory}

/-- The state of `sproto_pack` before the first round. -/
def Packer.start (bufsz : ℤ) (buffer : Memory) : Packer :=
  { bufsz := bufsz
    ffSrcstart := .srcv 0
    ffDesstart := 0
    ffN := 0
    size := 0
    memory := buffer
    reads := 0 }

/-- The state behind `k` rounds of `lpack`. -/
def rounds (src : Memory) (sz : ℕ) (buffer : Memory) (k : ℕ) : Packer :=
  packLoop src sz (.start (maxsz sz) buffer) k

theorem bounded_rounds (src : Memory) (sz : ℕ) (buffer : Memory) (k : ℕ) :
    Bounded k (rounds src sz buffer k).ffN (rounds src sz buffer k).size := by
  induction k with
  | zero => exact ⟨Nat.succ_pos _, 0, Nat.le_refl 0, Nat.le_refl 0⟩
  | succ k ih =>
      obtain ⟨hsize, hffN, -⟩ :=
        packRound_counts src sz (8 * k) (rounds src sz buffer k)
      rw [rounds, packLoop, ← rounds, hsize, hffN]
      exact ih.next (nonzeros_word_le src sz (8 * k))

/-- The rounds take no more than the buffer has. -/
theorem size_rounds_le
    (src : Memory) (buffer : Memory) (hk : k ≤ (sz + 7) / 8) :
    (rounds src sz buffer k).size ≤ maxsz sz := by
  rcases Nat.lt_or_ge sz (8 * k) with hlt | hge
  · obtain ⟨j, rfl⟩ : ∃ j, k = j + 1 := ⟨k - 1, by omega⟩
    obtain ⟨hsize, -, -⟩ :=
      packRound_counts src sz (8 * j) (rounds src sz buffer j)
    obtain ⟨m, hm⟩ : ∃ m, sz = 8 * j + m := ⟨sz - 8 * j, by omega⟩
    have hlast := (bounded_rounds src sz buffer j).last_le_maxsz
      (m := m) (z := nonzeros (word src sz (8 * j))) (by omega) (by omega)
      (Nat.le_trans (nonzeros_word_le_sub src (by omega) (by omega))
        (by omega))
    rw [rounds, packLoop, ← rounds, hsize]
    rw [← hm] at hlast
    exact hlast
  · have hmono : maxsz (8 * k) ≤ maxsz sz := by
      rw [maxsz, maxsz]
      omega
    exact Nat.le_trans (bounded_rounds src sz buffer k).le_maxsz hmono

theorem bufsz_rounds (src : Memory) (sz : ℕ) (buffer : Memory) (k : ℕ) :
    (rounds src sz buffer k).bufsz =
      maxsz sz - (rounds src sz buffer k).size := by
  induction k with
  | zero => exact (Int.sub_zero _).symm
  | succ k ih =>
      obtain ⟨hsize, -, hbufsz⟩ :=
        packRound_counts src sz (8 * k) (rounds src sz buffer k)
      rw [rounds, packLoop, ← rounds, hsize, hbufsz, ih]
      omega

theorem store_of_ge
    {memory : Memory} {des i : ℕ} {bytes : List UInt8}
    (hi : des + bytes.length ≤ i) :
    store memory des bytes i = memory i :=
  if_neg fun h => Nat.not_lt.mpr hi h.2

/-- What `write_ff` writes. -/
def ffSegment (ff : Memory) (n : ℕ) : List UInt8 :=
  0xff :: .ofNat ((n + 7) / 8 * 8 / 8 - 1) ::
    (readBytes ff n ++ List.replicate ((n + 7) / 8 * 8 - n) 0)

theorem length_ffSegment (ff : Memory) (n : ℕ) :
    (ffSegment ff n).length = (n + 7) / 8 * 8 + 2 := by
  rw [ffSegment, List.length_cons, List.length_cons, List.length_append,
    length_readBytes, List.length_replicate]
  omega

theorem writeFf_memory
    {memory ff : Memory} {des n i : ℕ} (hi : des + 2 + (n + 7) / 8 * 8 ≤ i) :
    writeFf ff memory des n i = memory i := by
  have hlen := length_ffSegment ff n
  exact store_of_ge (Nat.le_trans (by rw [← ffSegment]; omega) hi)

/-- What is written for the run that is open is counted, behind `k` words. -/
structure Reserved (sz k : ℕ) (buffer : Memory) (p : Packer) : Prop where
  run : 0 < p.ffN → p.ffDesstart + 2 + 8 * p.ffN = p.size
  start : 0 < p.ffN →
    ∃ pos, p.ffSrcstart = .srcv pos ∧ pos + 8 * p.ffN = 8 * k ∧
      pos + 8 ≤ sz
  memory : ∀ i, maxsz sz ≤ i → p.memory i = buffer i

theorem Reserved.writeRun
    {n : ℕ} {bufsz : ℤ} (h : Reserved sz k buffer p)
    (hrun : p.ffDesstart + 2 + (n + 7) / 8 * 8 ≤ maxsz sz) :
    ∀ i, maxsz sz ≤ i → (p.writeRun src bufsz n).memory i = buffer i := by
  intro i hi
  rw [Packer.writeRun]
  split
  · rw [← h.memory i hi]
    exact writeFf_memory (by omega)
  · exact h.memory i hi

theorem Reserved.seg
    (h : Reserved sz k buffer p) (src : Memory) (i : ℕ)
    (hbufsz : p.bufsz = maxsz sz - p.size) :
    Reserved sz k buffer (p.seg src sz i) := by
  refine ⟨h.run, h.start, fun j hj => ?_⟩
  rw [← h.memory j hj]
  exact packSeg_memory (by omega)

theorem reserved_rounds
    (src buffer : Memory) (hk : k ≤ (sz + 7) / 8) :
    Reserved sz k buffer (rounds src sz buffer k) := by
  induction k with
  | zero =>
      exact ⟨fun h => absurd h (Nat.lt_irrefl 0),
        fun h => absurd h (Nat.lt_irrefl 0), fun _ _ => rfl⟩
  | succ k ih =>
      have hp := ih (Nat.le_of_succ_le hk)
      have hsize := size_rounds_le src buffer hk
      have hsize' := size_rounds_le src buffer (Nat.le_of_succ_le hk)
      have hq := hp.seg src (8 * k) (bufsz_rounds src sz buffer k)
      rw [rounds, packLoop, ← rounds] at hsize ⊢
      rcases packRound_cases src sz (8 * k) (rounds src sz buffer k) with
        ⟨hn, hz, hr⟩ | ⟨hn, hz, hr⟩ | ⟨hn, hz, hlast, hr⟩ |
          ⟨hn, hz, hlast, hr⟩ | ⟨hn, hz, hr⟩
      · have hnone : ¬0 < (rounds src sz buffer k).ffN :=
          Nat.not_lt.mpr (Nat.le_of_eq hn)
        rw [hr]
        exact ⟨fun h => absurd h hnone, fun h => absurd h hnone, hq.memory⟩
      · have hle := le_of_nonzeros (by omega) hz
        rw [hr]
        exact ⟨fun _ => rfl, fun _ => ⟨8 * k, source_of_le hle, rfl, hle⟩,
          hq.memory⟩
      · have hrun := hp.run hn
        obtain ⟨pos, hpos, hk', hle⟩ := hp.start hn
        rw [hr]
        refine ⟨fun _ => ?_, fun _ => ⟨pos, hpos, ?_, hle⟩, hq.memory⟩
        · change (rounds src sz buffer k).ffDesstart + 2 +
            8 * ((rounds src sz buffer k).ffN + 1) =
              (rounds src sz buffer k).size + 8
          omega
        · dsimp only
          omega
      · have hrun := hp.run hn
        rw [hr] at hsize ⊢
        refine ⟨fun h => absurd h (Nat.lt_irrefl 0),
          fun h => absurd h (Nat.lt_irrefl 0), hq.writeRun ?_⟩
        change (rounds src sz buffer k).ffDesstart + _ + _ ≤ _
        dsimp only at hsize
        omega
      · have hrun := hp.run hn
        rw [hr]
        refine ⟨fun h => absurd h (Nat.lt_irrefl 0),
          fun h => absurd h (Nat.lt_irrefl 0), hq.writeRun ?_⟩
        change (rounds src sz buffer k).ffDesstart + _ + _ ≤ _
        omega

theorem writeRun_size {n : ℕ} {bufsz : ℤ} :
    (p.writeRun src bufsz n).size = p.size := by
  rw [Packer.writeRun]
  split <;> rfl

theorem packEnd_of_zero (h : p.ffN = 0) : packEnd src sz p = p := by
  rw [packEnd, if_neg (by omega), if_neg (by omega)]

theorem packEnd_size : (packEnd src sz p).size = p.size := by
  rw [packEnd]
  split_ifs
  · exact writeRun_size
  · split
    · exact writeRun_size
    · rfl
  · rfl

theorem packEnd_memory
    (h : Reserved sz ((sz + 7) / 8) buffer p) (hsize : p.size ≤ maxsz sz) :
    ∀ i, maxsz sz ≤ i → (packEnd src sz p).memory i = buffer i := by
  rw [packEnd]
  split_ifs with hone hmore
  · have hrun := h.run (by omega)
    exact h.writeRun (by omega)
  · have hrun := h.run (by omega)
    obtain ⟨pos, hpos, hk, -⟩ := h.start (by omega)
    rw [hpos]
    exact h.writeRun (by omega)
  · exact h.memory

theorem sproto_pack_eq (src : Memory) (sz : ℕ) (buffer : Memory) :
    sproto_pack src sz (maxsz sz) buffer =
      packEnd src sz (rounds src sz buffer ((sz + 7) / 8)) := rfl

end Buffer

/-- With the buffer of `lpack`, `sproto_pack` returns at most its size and
writes nothing behind it.  The sizes are in the range of an `int`. -/
theorem sproto_pack_fits
    (src : Memory) (sz : ℕ) (buffer : Memory) (hsz : sz < 0x40000000) :
    (sproto_pack src sz (maxsz sz) buffer).size ≤ maxsz sz ∧
      maxsz sz < 0x80000000 ∧
      (∀ i, maxsz sz ≤ i →
        (sproto_pack src sz (maxsz sz) buffer).memory i = buffer i) ∧
      lpack src sz buffer ≠ none := by
  have hrounds := size_rounds_le src buffer (Nat.le_refl ((sz + 7) / 8))
  have hsize : (sproto_pack src sz (maxsz sz) buffer).size ≤ maxsz sz := by
    rw [sproto_pack_eq, packEnd_size]
    exact hrounds
  refine ⟨hsize, ?_, ?_, ?_⟩
  · rw [maxsz]
    omega
  · rw [sproto_pack_eq]
    exact packEnd_memory (reserved_rounds src buffer (Nat.le_refl _)) hrounds
  · intro h
    rw [lpack, if_neg (Nat.not_lt.mpr hsize)] at h
    cases h

theorem sproto_pack_fits_of_three :
    3 < 0x40000000 ∧
      lpack (fun _ => 1) 3 (fun _ => 0) ≠ none :=
  ⟨by decide, (sproto_pack_fits (fun _ => 1) 3 (fun _ => 0) (by decide)).2.2.2⟩

end SkynetServer.SprotoPack
