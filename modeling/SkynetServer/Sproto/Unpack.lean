import Mathlib.Data.List.Count
import SkynetServer.Sproto.Pack

/-!
# Reading packed bytes

A packed string is a sequence of segments: a header with the bytes of a word, or
`0xff` with a number of words and these words.  It is complete, or ends inside
of a segment.

`sproto_unpack` looks for the next byte behind a header of a word when it has
counted one byte less than nothing, and for the number of words not at all.  So
it reads behind a string that lacks this byte, and takes a string for complete
that lacks the last byte of a word.
-/

namespace SkynetServer.SprotoPack

/-! ## Segments -/

/-- The byte for a bit of a header, and the bytes behind it. -/
def byteOf : Bool → List UInt8 → Option (UInt8 × List UInt8)
  | false, src => some (0, src)
  | true, [] => none
  | true, b :: src => some (b, src)

/-- A word with these bits, and the bytes behind it. -/
def fill : List Bool → List UInt8 → Option (List UInt8 × List UInt8)
  | [], src => some ([], src)
  | nz :: bs, src =>
    (byteOf nz src).bind fun b =>
      (fill bs b.2).map fun r => (b.1 :: r.1, r.2)

/-- The index of the first bit for which there is no byte, behind `r` others. -/
def starved : List Bool → ℕ → ℕ
  | [], _ => 0
  | false :: bs, r => starved bs r + 1
  | true :: _, 0 => 0
  | true :: bs, r + 1 => starved bs r + 1

/-- The first `n` words of a string. -/
def wordsOf : ℕ → List UInt8 → List (List UInt8)
  | 0, _ => []
  | n + 1, src => src.take 8 :: wordsOf n (src.drop 8)

/-- How a packed string ends, with what is behind its last segment. -/
inductive Tail where
  /-- Behind a segment. -/
  | complete
  /-- Behind `0xff`. -/
  | bare
  /-- Inside of the words of a run. -/
  | run (c : UInt8) (src : List UInt8)
  /-- Inside of a word. -/
  | bits (header : UInt8) (src : List UInt8)

theorem length_byteOf
    {nz : Bool} {src mid : List UInt8} {b : UInt8}
    (h : byteOf nz src = some (b, mid)) :
    mid.length + [nz].count true = src.length := by
  cases nz with
  | false =>
      cases h
      rfl
  | true =>
      cases src with
      | nil => cases h
      | cons b src =>
          cases h
          rfl

theorem byteOf_eq_none
    {nz : Bool} {src : List UInt8} (h : byteOf nz src = none) :
    nz = true ∧ src = [] := by
  cases nz with
  | false => cases h
  | true =>
      cases src with
      | nil => exact ⟨rfl, rfl⟩
      | cons b src => cases h

theorem count_cons_eq (nz : Bool) (bs : List Bool) :
    (nz :: bs).count true = [nz].count true + bs.count true := by
  rw [← List.count_append, List.singleton_append]

variable {bs : List Bool}

theorem fill_cons
    {nz : Bool} {src w rest : List UInt8}
    (h : fill (nz :: bs) src = some (w, rest)) :
    ∃ b mid w', byteOf nz src = some (b, mid) ∧
      fill bs mid = some (w', rest) ∧ w = b :: w' := by
  rw [fill, Option.bind_eq_some_iff] at h
  obtain ⟨⟨b, mid⟩, hb, h⟩ := h
  obtain ⟨⟨w', rest'⟩, hw, heq⟩ := Option.map_eq_some_iff.mp h
  cases heq
  exact ⟨b, mid, w', hb, hw, rfl⟩

theorem length_fill
    {src w rest : List UInt8}
    (h : fill bs src = some (w, rest)) :
    w.length = bs.length ∧ rest.length + bs.count true = src.length := by
  induction bs generalizing src w with
  | nil =>
      cases h
      exact ⟨rfl, rfl⟩
  | cons nz bs ih =>
      obtain ⟨b, mid, w', hb, hw, rfl⟩ := fill_cons h
      obtain ⟨hlen, hrest⟩ := ih hw
      refine ⟨congrArg Nat.succ hlen, ?_⟩
      rw [← length_byteOf hb, ← hrest, count_cons_eq nz bs]
      omega

theorem fill_eq_none
    {src : List UInt8} (h : fill bs src = none) :
    src.length < bs.count true := by
  induction bs generalizing src with
  | nil => cases h
  | cons nz bs ih =>
      rw [count_cons_eq]
      rcases hb : byteOf nz src with _ | ⟨b, mid⟩
      · obtain ⟨rfl, rfl⟩ := byteOf_eq_none hb
        exact Nat.add_pos_left Nat.one_pos _
      · rw [fill, hb, Option.bind_some, Option.map_eq_none_iff] at h
        rw [← length_byteOf hb, Nat.add_comm mid.length]
        exact Nat.add_lt_add_left (ih h) _

theorem fill_append
    {src w rest : List UInt8}
    (h : fill bs src = some (w, rest)) (src' : List UInt8) :
    fill bs (src ++ src') = some (w, rest ++ src') := by
  induction bs generalizing src w with
  | nil =>
      cases h
      rfl
  | cons nz bs ih =>
      obtain ⟨b, mid, w', hb, hw, rfl⟩ := fill_cons h
      have hb' : byteOf nz (src ++ src') = some (b, mid ++ src') := by
        cases nz with
        | false =>
            cases hb
            rfl
        | true =>
            cases src with
            | nil => cases hb
            | cons c src =>
                cases hb
                rfl
      rw [fill, hb', Option.bind_some, ih hw]
      rfl

theorem wordsOf_append
    {n : ℕ} {src : List UInt8} (h : n * 8 ≤ src.length) (rest : List UInt8) :
    wordsOf n (src ++ rest) = wordsOf n src := by
  induction n generalizing src with
  | zero => rfl
  | succ n ih =>
      have hle : 8 ≤ src.length := by omega
      rw [wordsOf, wordsOf, List.take_append_of_le_length hle,
        List.drop_append_of_le_length hle, ih]
      rw [List.length_drop]
      omega

theorem flatten_wordsOf (n : ℕ) (src : List UInt8) :
    (wordsOf n src).flatten = src.take (n * 8) := by
  induction n generalizing src with
  | zero =>
      rw [Nat.zero_mul, List.take_zero]
      rfl
  | succ n ih =>
      rw [wordsOf, List.flatten_cons, ih, Nat.add_mul, Nat.one_mul,
        Nat.add_comm (n * 8), List.take_add]

/-- The words of a packed string, and its end. -/
def scan : List UInt8 → List (List UInt8) × Tail
  | [] => ([], .complete)
  | header :: src =>
    if header = 0xff then
      match src with
      | [] => ([], .bare)
      | c :: src =>
        if src.length < (c.toNat + 1) * 8 then ([], .run c src)
        else
          let r := scan (src.drop ((c.toNat + 1) * 8))
          (wordsOf (c.toNat + 1) src ++ r.1, r.2)
    else
      match _h : fill (bitsOf header) src with
      | none => ([], .bits header src)
      | some (w, rest) =>
        let r := scan rest
        (w :: r.1, r.2)
termination_by src => src.length
decreasing_by
  · rw [List.length_drop]
    simp only [List.length_cons]
    omega
  · have hlen := (length_fill _h).2
    simp only [List.length_cons]
    omega

section Scan

variable {header c : UInt8} {src w rest : List UInt8}

theorem scan_run (h : (c.toNat + 1) * 8 ≤ src.length) :
    scan (0xff :: c :: src) =
      (wordsOf (c.toNat + 1) src ++
        (scan (src.drop ((c.toNat + 1) * 8))).1,
        (scan (src.drop ((c.toNat + 1) * 8))).2) := by
  rw [scan, if_pos rfl]
  dsimp only
  rw [if_neg (Nat.not_lt.mpr h)]

theorem scan_bits
    (hheader : header ≠ 0xff) (h : fill (bitsOf header) src = some (w, rest)) :
    scan (header :: src) = (w :: (scan rest).1, (scan rest).2) := by
  rw [scan.eq_def]
  dsimp only
  rw [if_neg hheader]
  split
  · rename_i hnone
    rw [h] at hnone
    cases hnone
  · rename_i w' rest' hsome
    rw [h] at hsome
    cases hsome
    rfl

theorem scan_bits_of_none
    (hheader : header ≠ 0xff) (h : fill (bitsOf header) src = none) :
    scan (header :: src) = ([], .bits header src) := by
  rw [scan.eq_def]
  dsimp only
  rw [if_neg hheader]
  split
  · rfl
  · rename_i hsome
    rw [h] at hsome
    cases hsome

/-- Segments may follow a complete string. -/
theorem scan_append
    (h : (scan src).2 = .complete) (rest : List UInt8) :
    scan (src ++ rest) = ((scan src).1 ++ (scan rest).1, (scan rest).2) := by
  fun_induction scan src with
  | case1 => rfl
  | case2 | case3 => cases h
  | case4 c src hlong r ih =>
      have hle := Nat.le_of_not_lt hlong
      have hle' : (c.toNat + 1) * 8 ≤ (src ++ rest).length := by
        rw [List.length_append]
        exact Nat.le_add_right_of_le hle
      rw [List.cons_append, List.cons_append, scan_run hle',
        List.drop_append_of_le_length hle, ih h, wordsOf_append hle,
        List.append_assoc]
  | case5 => cases h
  | case6 header src hheader w mid hfill r ih =>
      rw [List.cons_append, scan_bits hheader (fill_append hfill rest), ih h]
      rfl

theorem length_bitsOf (header : UInt8) : (bitsOf header).length = 8 := rfl

theorem length_of_mem_wordsOf
    {n : ℕ} (hlong : n * 8 ≤ src.length) (hw : w ∈ wordsOf n src) :
    w.length = 8 := by
  induction n generalizing src with
  | zero => cases hw
  | succ n ih =>
      rw [Nat.add_mul, Nat.one_mul] at hlong
      rcases List.mem_cons.mp hw with rfl | hw
      · exact List.length_take_of_le
          (Nat.le_trans (Nat.le_add_left 8 _) hlong)
      · refine ih ?_ hw
        rw [List.length_drop]
        exact Nat.le_sub_of_add_le hlong

/-- A word has eight bytes. -/
theorem length_of_mem_scan (src : List UInt8) :
    ∀ w ∈ (scan src).1, w.length = 8 := by
  fun_induction scan src with
  | case1 | case2 | case3 => exact List.forall_mem_nil _
  | case4 c src hlong r ih =>
      intro w hw
      rcases List.mem_append.mp hw with hw | hw
      · exact length_of_mem_wordsOf (Nat.le_of_not_lt hlong) hw
      · exact ih w hw
  | case5 => exact List.forall_mem_nil _
  | case6 header src hheader w rest hfill r ih =>
      exact List.forall_mem_cons.mpr ⟨(length_fill hfill).1, ih⟩

/-- The word at the end lacks a byte. -/
theorem fill_of_scan (h : (scan src).2 = .bits header rest) :
    fill (bitsOf header) rest = none := by
  fun_induction scan src with
  | case1 | case2 | case3 => cases h
  | case4 c src hlong r ih => exact ih h
  | case5 header' src hheader hfill =>
      cases h
      exact hfill
  | case6 header src hheader w rest' hfill r ih => exact ih h

/-- What the words of a packed string take. -/
def measure (src : List UInt8) : ℕ := 8 * (scan src).1.length

theorem length_flatten_scan (src : List UInt8) :
    (scan src).1.flatten.length = measure src := by
  rw [List.length_flatten,
    List.map_congr_left (length_of_mem_scan src), List.map_const',
    List.sum_replicate_nat, Nat.mul_comm, measure]

end Scan

/-! ## What a segment writes -/

/-- The string that a tail has left to be read. -/
def Tail.src : Tail → List UInt8
  | .complete => []
  | .bare => [0xff]
  | .run c src => 0xff :: c :: src
  | .bits header src => header :: src

namespace Unpacker

/-- `u'` is `u` behind the bytes `w`, with `rest` left to be read. -/
structure Wrote (u : Unpacker) (w rest : List UInt8) (u' : Unpacker) :
    Prop where
  src : u'.src = rest
  srcsz : u'.srcsz = rest.length
  size : u'.size = u.size + w.length
  fits : (w.length : ℤ) ≤ u.bufsz →
    u'.bufsz = u.bufsz - w.length ∧ u'.out = u.out ++ w
  full : u.bufsz < w.length → u'.bufsz ≤ 0

section Wrote

variable {u u' u₁ : Unpacker} {w w' src rest : List UInt8}

theorem Wrote.refl (hsrcsz : u.srcsz = u.src.length) :
    Wrote u [] u.src u where
  src := rfl
  srcsz := hsrcsz
  size := rfl
  fits := fun _ => ⟨(Int.sub_zero _).symm, (List.append_nil _).symm⟩
  full := Int.le_of_lt

/-- The segment itself is left out. -/
theorem Wrote.behind
    {n : ℤ} (h : Wrote { u with src := src, srcsz := n } w rest u') :
    Wrote u w rest u' :=
  ⟨h.src, h.srcsz, h.size, h.fits, h.full⟩

theorem exists_wrote (u : Unpacker) (w rest : List UInt8) :
    ∃ u', Wrote u w rest u' :=
  ⟨{ src := rest
     srcsz := rest.length
     out := u.out ++ w
     bufsz := u.bufsz - w.length
     size := u.size + w.length },
    rfl, rfl, rfl, fun _ => ⟨rfl, rfl⟩, by
      intro hfull
      dsimp only
      omega⟩

theorem Wrote.trans
    (h : Wrote u w src u₁) (h' : Wrote u₁ w' rest u') :
    Wrote u (w ++ w') rest u' where
  src := h'.src
  srcsz := h'.srcsz
  size := by
    rw [h'.size, h.size, List.length_append, Nat.add_assoc]
  fits := by
    intro hfits
    rw [List.length_append, Int.natCast_add] at hfits
    obtain ⟨hbufsz, hout⟩ := h.fits (by omega)
    obtain ⟨hbufsz', hout'⟩ := h'.fits (by omega)
    refine ⟨?_, ?_⟩
    · rw [hbufsz', hbufsz, List.length_append]
      omega
    · rw [hout', hout, List.append_assoc]
  full := by
    intro hfull
    rw [List.length_append, Int.natCast_add] at hfull
    rcases Int.lt_or_le u.bufsz w.length with hlt | hle
    · have hbufsz := h.full hlt
      rcases Int.lt_or_le u₁.bufsz w'.length with hlt' | hle'
      · exact h'.full hlt'
      · have hbufsz' := (h'.fits hle').1
        omega
    · have hbufsz := (h.fits hle).1
      exact h'.full (by omega)

/-- The outcome of steps that lead to `u`. -/
def settle (u : Unpacker) : Except Stop Unpacker :=
  if u.size < 0x80000000 then .ok u else .error .undefined

theorem count_eq (u : Unpacker) (n : ℕ) :
    u.count n = settle { u with size := u.size + n } := rfl

theorem settle_of_lt (h : u.size < 0x80000000) : settle u = .ok u := if_pos h

theorem settle_of_le (h : 0x80000000 ≤ u.size) :
    settle u = .error .undefined :=
  if_neg (Nat.not_lt.mpr h)

theorem Wrote.size_le (h : Wrote u w rest u') : u.size ≤ u'.size := by
  rw [h.size]
  exact Nat.le_add_right _ _

/-- A byte of a word. -/
theorem bit_of_byteOf
    {nz : Bool} {b : UInt8} (hsrcsz : u.srcsz = u.src.length)
    (hb : byteOf nz u.src = some (b, rest)) :
    ∃ u', u.bit nz = settle u' ∧ Wrote u [b] rest u' := by
  have hone : (([b] : List UInt8).length : ℤ) = 1 := rfl
  cases nz with
  | false =>
      cases hb
      rw [bit, if_neg Bool.false_ne_true]
      by_cases hroom : u.bufsz > 0
      · rw [if_pos hroom, count_eq]
        refine ⟨_, rfl, rfl, hsrcsz, rfl, fun _ => ⟨rfl, rfl⟩, ?_⟩
        intro hfull
        omega
      · rw [if_neg hroom, count_eq]
        refine ⟨_, rfl, rfl, hsrcsz, rfl, ?_, fun _ => Int.not_lt.mp hroom⟩
        intro hfits
        omega
  | true =>
      rcases hsrc : u.src with _ | ⟨c, src⟩
      · rw [hsrc] at hb
        cases hb
      · rw [hsrc] at hb
        cases hb
        rw [hsrc, List.length_cons] at hsrcsz
        rw [bit, if_pos rfl, if_neg (by omega), hsrc]
        dsimp only
        by_cases hroom : u.bufsz > 0
        · rw [if_pos hroom, count_eq]
          refine ⟨_, rfl, rfl, ?_, rfl, fun _ => ⟨rfl, rfl⟩, ?_⟩
          · dsimp only
            omega
          · intro hfull
            omega
        · rw [if_neg hroom, count_eq]
          refine ⟨_, rfl, rfl, ?_, rfl, ?_, fun _ => Int.not_lt.mp hroom⟩
          · dsimp only
            omega
          · intro hfits
            omega

theorem Wrote.srcsz_eq (h : Wrote u w rest u') : u'.srcsz = u'.src.length := by
  rw [h.srcsz, h.src]

/-- A step that writes `w`, and then others that write `w'`. -/
theorem settle_bind
    {f g : Unpacker → Except Stop Unpacker} (h : Wrote u w src u₁)
    (hf : u₁.size < 0x80000000 → u₁.srcsz = u₁.src.length →
      ∃ u', f u₁ = (settle u').bind g ∧ Wrote u₁ w' rest u') :
    ∃ u', (settle u₁).bind f = (settle u').bind g ∧
      Wrote u (w ++ w') rest u' := by
  rcases Nat.lt_or_ge u₁.size 0x80000000 with hlt | hge
  · obtain ⟨u', heq, hwrote⟩ := hf hlt h.srcsz_eq
    refine ⟨u', ?_, h.trans hwrote⟩
    rw [settle_of_lt hlt]
    exact heq
  · obtain ⟨u', hwrote⟩ := exists_wrote u₁ w' rest
    refine ⟨u', ?_, h.trans hwrote⟩
    rw [settle_of_le hge, settle_of_le (Nat.le_trans hge hwrote.size_le)]
    rfl

theorem bind_ok (r : Except Stop Unpacker) : r.bind .ok = r := by
  cases r <;> rfl

variable {bs : List Bool}

/-- The bytes of a word. -/
theorem bits_of_fill
    (hsize : u.size < 0x80000000)
    (hsrcsz : u.srcsz = u.src.length) (hfill : fill bs u.src = some (w, rest)) :
    ∃ u', u.bits bs = (settle u').bind .ok ∧ Wrote u w rest u' := by
  induction bs generalizing u w with
  | nil =>
      cases hfill
      refine ⟨u, ?_, .refl hsrcsz⟩
      rw [settle_of_lt hsize]
      rfl
  | cons nz bs ih =>
      obtain ⟨b, mid, w', hb, hw, rfl⟩ := fill_cons hfill
      obtain ⟨u₁, hbit, hwrote⟩ := bit_of_byteOf hsrcsz hb
      rw [← hwrote.src] at hw
      rw [bits, hbit]
      exact settle_bind hwrote fun hsize₁ hsrcsz₁ => ih hsize₁ hsrcsz₁ hw

/-- The words of a run. -/
theorem run_of_le
    {c : UInt8} (hsrcsz : u.srcsz = u.src.length) (hsrc : u.src = c :: src)
    (hlong : (c.toNat + 1) * 8 ≤ src.length) :
    ∃ u', u.run = settle u' ∧
      Wrote u (src.take ((c.toNat + 1) * 8))
        (src.drop ((c.toNat + 1) * 8)) u' := by
  have hlen := List.length_take_of_le hlong
  rw [hsrc, List.length_cons] at hsrcsz
  rw [run, if_neg (by omega), hsrc]
  dsimp only
  rw [if_neg (by omega), count_eq]
  refine ⟨_, rfl, rfl, ?_, ?_, ?_, ?_⟩
  · dsimp only
    rw [List.length_drop]
    omega
  · rw [hlen]
  · intro hfits
    rw [hlen] at hfits
    dsimp only
    rw [if_pos hfits, hlen]
    exact ⟨rfl, rfl⟩
  · intro hfull
    dsimp only
    omega

/-- A segment and then the others. -/
theorem unpackLoop_cons
    {n : ℕ} {header : UInt8} (hsrcsz : u.srcsz = u.src.length)
    (hn : u.src.length ≤ n) (hsrc : u.src = header :: src) :
    ∃ m, src.length ≤ m ∧ unpackLoop n u =
      (if header = 0xff then
          run { u with src := src, srcsz := src.length }
        else
          bits (bitsOf header) { u with src := src, srcsz := src.length }).bind
        (unpackLoop m) := by
  rw [hsrc, List.length_cons] at hsrcsz hn
  cases n with
  | zero => cases hn
  | succ m =>
      refine ⟨m, Nat.le_of_succ_le_succ hn, ?_⟩
      rw [unpackLoop, if_pos (by omega), hsrc]
      dsimp only
      rw [show u.srcsz - 1 = src.length by omega]

theorem unpackLoop_of_le {n : ℕ} (h : u.srcsz ≤ 0) :
    unpackLoop n u = .ok u := by
  cases n with
  | zero => rfl
  | succ n => exact if_neg (Int.not_lt.mpr h)

theorem count_ok {n : ℕ} (h : u.count n = .ok u') :
    u'.srcsz = u.srcsz := by
  rw [count] at h
  split at h
  · cases h
    rfl
  · cases h

theorem srcsz_of_bit
    {nz : Bool} (h : u.bit nz = .ok u') :
    u'.srcsz = u.srcsz - [nz].count true := by
  cases nz with
  | false =>
      rw [bit, if_neg Bool.false_ne_true] at h
      split at h
      · rw [count_ok h]
        exact (Int.sub_zero _).symm
      · rw [count_ok h]
        exact (Int.sub_zero _).symm
  | true =>
      rw [bit, if_pos rfl] at h
      split at h
      · cases h
      · split at h
        · split at h
          · cases h
          · exact count_ok h
        · exact count_ok h

theorem srcsz_of_bits
    (h : u.bits bs = .ok u') :
    u'.srcsz = u.srcsz - bs.count true := by
  induction bs generalizing u with
  | nil =>
      cases h
      exact (Int.sub_zero _).symm
  | cons nz bs ih =>
      rw [bits] at h
      rcases hbit : u.bit nz with e | u₁
      · rw [hbit] at h
        cases h
      · rw [hbit] at h
        rw [ih h, srcsz_of_bit hbit, count_cons_eq nz bs]
        omega

/-- What the loop does with a tail. -/
def finish (u : Unpacker) : Tail → Except Stop Unpacker
  | .complete => .ok u
  | .bare => .error .undefined
  | .run _ _ => .error .invalid
  | .bits header src =>
    bits (bitsOf header) { u with src := src, srcsz := src.length }

/-- The loop reads the words of the string and comes to its tail. -/
theorem unpackLoop_scan
    {n : ℕ} (hsize : u.size < 0x80000000) (hsrcsz : u.srcsz = u.src.length)
    (hn : u.src.length ≤ n) :
    ∃ u', unpackLoop n u = (settle u').bind (finish · (scan u.src).2) ∧
      Wrote u (scan u.src).1.flatten (scan u.src).2.src u' := by
  generalize hsrc : u.src = src
  have hstay := Wrote.refl hsrcsz
  rw [hsrc] at hstay
  fun_induction scan src generalizing u n with
  | case1 =>
      refine ⟨u, ?_, hstay⟩
      rw [settle_of_lt hsize]
      rw [hsrc] at hsrcsz
      exact unpackLoop_of_le (Int.le_of_eq hsrcsz)
  | case2 =>
      obtain ⟨m, -, hloop⟩ := unpackLoop_cons hsrcsz hn hsrc
      refine ⟨u, ?_, hstay⟩
      rw [hloop, settle_of_lt hsize]
      rfl
  | case3 c src hshort =>
      obtain ⟨m, -, hloop⟩ := unpackLoop_cons hsrcsz hn hsrc
      refine ⟨u, ?_, hstay⟩
      rw [hloop, settle_of_lt hsize, if_pos rfl, run]
      dsimp only
      rw [List.length_cons, if_neg (by omega), if_pos (by omega)]
      rfl
  | case4 c src hlong r =>
      rename_i ih
      obtain ⟨m, hm, hloop⟩ := unpackLoop_cons hsrcsz hn hsrc
      obtain ⟨u₁, hrun, hwrote⟩ :=
        run_of_le (u := { u with src := c :: src, srcsz := (c :: src).length })
          rfl rfl (Nat.le_of_not_lt hlong)
      rw [hloop, if_pos rfl, hrun, List.flatten_append, flatten_wordsOf]
      refine settle_bind hwrote.behind fun hsize₁ hsrcsz₁ => ?_
      refine ih hsize₁ hsrcsz₁ ?_ hwrote.src ?_
      · rw [hwrote.src, List.length_drop]
        rw [List.length_cons] at hm
        omega
      · rw [← hwrote.src]
        exact .refl hsrcsz₁
  | case5 header src hheader hfill =>
      obtain ⟨m, -, hloop⟩ := unpackLoop_cons hsrcsz hn hsrc
      refine ⟨u, ?_, hstay⟩
      rw [hloop, settle_of_lt hsize, if_neg hheader]
      have hstarved := fill_eq_none hfill
      rcases hbits : bits (bitsOf header)
        { u with src := src, srcsz := src.length } with e | u₁
      · exact hbits.symm
      · refine (unpackLoop_of_le ?_).trans hbits.symm
        rw [srcsz_of_bits hbits]
        dsimp only
        omega
  | case6 header src hheader w rest hfill r =>
      rename_i ih
      obtain ⟨m, hm, hloop⟩ := unpackLoop_cons hsrcsz hn hsrc
      obtain ⟨u₁, hbits, hwrote⟩ :=
        bits_of_fill (u := { u with src := src, srcsz := src.length })
          hsize rfl hfill
      rw [hloop, if_neg hheader, hbits, bind_ok, List.flatten_cons]
      refine settle_bind hwrote.behind fun hsize₁ hsrcsz₁ => ?_
      refine ih hsize₁ hsrcsz₁ ?_ hwrote.src ?_
      · rw [hwrote.src]
        have hlen := (length_fill hfill).2
        omega
      · rw [← hwrote.src]
        exact .refl hsrcsz₁

/-! ## A word that lacks bytes -/

theorem bit_false (u : Unpacker) :
    ∃ u', u.bit false = settle u' ∧
      u'.srcsz = u.srcsz ∧ u'.size = u.size + 1 := by
  rw [bit, if_neg Bool.false_ne_true]
  split
  · exact ⟨_, count_eq .., rfl, rfl⟩
  · exact ⟨_, count_eq .., rfl, rfl⟩

/-- The check of the bytes that are left is made behind the one that is not
there. -/
theorem bits_of_negative
    (hsrcsz : u.srcsz < 0)
    (hsize : u.size + bs.length ≤ 0x80000000) :
    (settle u).bind (bits bs) = .error .invalid ↔ 0 < bs.count true := by
  induction bs generalizing u with
  | nil =>
      refine iff_of_false ?_ (Nat.lt_irrefl 0)
      rw [settle]
      split <;> intro h <;> cases h
  | cons nz bs ih =>
      rw [List.length_cons] at hsize
      rw [settle_of_lt (by omega)]
      change bits (nz :: bs) u = _ ↔ _
      rw [bits]
      cases nz with
      | false =>
          obtain ⟨u', hbit, hsrcsz', hsize'⟩ := bit_false u
          rw [hbit, List.count_cons_of_ne Bool.false_ne_true]
          exact ih (by omega) (by omega)
      | true =>
          rw [bit, if_pos rfl, if_pos hsrcsz, List.count_cons_self]
          exact iff_of_true rfl (Nat.succ_pos _)

theorem starved_cons
    {nz : Bool} {b : UInt8}
    (hb : byteOf nz src = some (b, rest)) :
    starved (nz :: bs) src.length = starved bs rest.length + 1 := by
  cases nz with
  | false =>
      cases hb
      rfl
  | true =>
      cases src with
      | nil => cases hb
      | cons c src =>
          cases hb
          rfl

/-- The loop over the bits finds out only with a second byte that is not there,
and if it has no room for the first. -/
theorem bits_eq_invalid_iff
    (hsrcsz : u.srcsz = u.src.length)
    (hsize : u.size + bs.length ≤ 0x80000000) (hfill : fill bs u.src = none) :
    u.bits bs = .error .invalid ↔
      u.src.length + 2 ≤ bs.count true ∧
        u.bufsz ≤ starved bs u.src.length := by
  induction bs generalizing u with
  | nil => cases hfill
  | cons nz bs ih =>
      rw [List.length_cons] at hsize
      rcases hb : byteOf nz u.src with _ | ⟨b, mid⟩
      · obtain ⟨rfl, hsrc⟩ := byteOf_eq_none hb
        rw [hsrc, List.length_nil] at hsrcsz
        rw [hsrc, bits, bit, if_pos rfl, if_neg (by omega), hsrc,
          List.count_cons_self, List.length_nil, starved]
        by_cases hroom : u.bufsz > 0
        · rw [if_pos hroom]
          refine iff_of_false (fun h => by cases h) ?_
          omega
        · rw [if_neg hroom, count_eq]
          refine (bits_of_negative ?_ ?_).trans ?_
          · dsimp only
            omega
          · dsimp only
            omega
          · omega
      · obtain ⟨u₁, hbit, hwrote⟩ := bit_of_byteOf hsrcsz hb
        rw [fill, hb, Option.bind_some, Option.map_eq_none_iff,
          ← hwrote.src] at hfill
        have hcount := fill_eq_none hfill
        have hbs := List.count_le_length (a := true) (l := bs)
        have hsize₁ : u₁.size = u.size + 1 := hwrote.size
        have hfits : 1 ≤ u.bufsz → u₁.bufsz = u.bufsz - 1 :=
          fun h => (hwrote.fits h).1
        have hfull : u.bufsz < 1 → u₁.bufsz ≤ 0 := hwrote.full
        have hlen := length_byteOf hb
        rw [bits, hbit, settle_of_lt (by omega)]
        refine (ih hwrote.srcsz_eq (by omega) hfill).trans ?_
        rw [starved_cons hb, count_cons_eq nz bs, hwrote.src]
        omega

end Wrote

end Unpacker

/-! ## `sproto_unpack` -/

/-- `sproto_unpack` returns the size of the words and writes them if they fit,
or returns -1 if the string ends inside of a segment. -/
def Unpacked (src : List UInt8) (bufsz : ℤ) : Prop :=
  match (scan src).2 with
  | .complete =>
    ∃ out, sproto_unpack src bufsz = .ok (measure src, out) ∧
      (measure src ≤ bufsz → out = (scan src).1.flatten)
  | _ => sproto_unpack src bufsz = .error .invalid

/-- The size of the words is an `int`.  The string does not end with `0xff`, and
if it ends inside of a word then the word lacks more than one byte and the
buffer has no room for the first one. -/
def Announced (src : List UInt8) (bufsz : ℤ) : Prop :=
  measure src < 0x80000000 ∧
    match (scan src).2 with
    | .complete => True
    | .bare => False
    | .run _ _ => True
    | .bits header rest =>
      rest.length + 2 ≤ (bitsOf header).count true ∧
        bufsz ≤ measure src + starved (bitsOf header) rest.length

theorem map_eq_invalid (r : Except Stop Unpacker) :
    r.map (fun u => (u.size, u.out)) = .error .invalid ↔
      r = .error .invalid := by
  constructor
  · intro h
    cases r with
    | error e => exact congrArg _ (Except.error.inj h)
    | ok u => cases h
  · intro h
    rw [h]
    rfl

/-- The words are counted, and written if they fit. -/
theorem sproto_unpack_scan (src : List UInt8) (bufsz : ℤ) :
    ∃ u : Unpacker, sproto_unpack src bufsz =
        (u.settle.bind (Unpacker.finish · (scan src).2)).map
          (fun u => (u.size, u.out)) ∧
      u.size = measure src ∧
      (measure src ≤ bufsz →
        u.bufsz = bufsz - measure src ∧ u.out = (scan src).1.flatten) ∧
      (bufsz < measure src → u.bufsz ≤ 0) := by
  obtain ⟨u, hloop, hwrote⟩ :=
    Unpacker.unpackLoop_scan
      (u := ⟨src, src.length, [], bufsz, 0⟩) (Nat.succ_pos 0x7fffffff) rfl
      (Nat.le_refl src.length)
  refine ⟨u, congrArg _ hloop, ?_, ?_, ?_⟩
  · rw [hwrote.size, length_flatten_scan]
    exact Nat.zero_add _
  · rw [← length_flatten_scan]
    exact hwrote.fits
  · rw [← length_flatten_scan]
    exact hwrote.full

theorem sproto_unpack_of_complete
    {src : List UInt8} (bufsz : ℤ) (htail : (scan src).2 = .complete)
    (hlt : measure src < 0x80000000) :
    ∃ out, sproto_unpack src bufsz = .ok (measure src, out) ∧
      (measure src ≤ bufsz → out = (scan src).1.flatten) := by
  obtain ⟨u, hunpack, hsize, hfits, -⟩ := sproto_unpack_scan src bufsz
  rw [htail, Unpacker.settle_of_lt (by omega)] at hunpack
  refine ⟨u.out, ?_, fun h => (hfits h).2⟩
  rw [hunpack, ← hsize]
  rfl

/-- `sproto_unpack` reads behind the string, or takes it for complete, when it
lacks the number of words behind `0xff`, the last byte of a word, or bytes of a
word into which the buffer ends. -/
theorem unpacked_iff_announced (src : List UInt8) (bufsz : ℤ) :
    Unpacked src bufsz ↔ Announced src bufsz := by
  obtain ⟨u, hunpack, hsize, hfits, hfull⟩ := sproto_unpack_scan src bufsz
  rw [Unpacked, Announced]
  rcases Nat.lt_or_ge (measure src) 0x80000000 with hlt | hge
  · rcases htail : (scan src).2 with _ | _ | ⟨c, rest⟩ | ⟨header, rest⟩
    · exact iff_of_true (sproto_unpack_of_complete bufsz htail hlt)
        ⟨hlt, trivial⟩
    · rw [hunpack, Unpacker.settle_of_lt (by omega), htail]
      exact iff_of_false (fun h => by cases h) And.right
    · rw [hunpack, Unpacker.settle_of_lt (by omega), htail]
      exact iff_of_true rfl ⟨hlt, trivial⟩
    · have hroom : u.size + (bitsOf header).length ≤ 0x80000000 := by
        rw [hsize, length_bitsOf]
        rw [measure] at hlt ⊢
        omega
      have hinvalid :=
        Unpacker.bits_eq_invalid_iff
          (u := { u with src := rest, srcsz := rest.length }) rfl hroom
          (fill_of_scan htail)
      have hbufsz : u.bufsz ≤ starved (bitsOf header) rest.length ↔
          bufsz ≤ measure src + starved (bitsOf header) rest.length := by
        omega
      rw [hunpack, Unpacker.settle_of_lt (by omega), htail]
      refine (map_eq_invalid _).trans (hinvalid.trans ?_)
      exact (and_congr_right fun _ => hbufsz).trans
        (and_iff_right hlt).symm
  · rw [hunpack, Unpacker.settle_of_le (by omega)]
    refine iff_of_false ?_ fun h => Nat.not_lt.mpr hge h.1
    rcases (scan src).2 with _ | _ | ⟨c, rest⟩ | ⟨header, rest⟩
    · rintro ⟨out, h, -⟩
      cases h
    all_goals
      intro h
      cases h

/-- A string that lacks the byte of its word is taken for complete. -/
theorem short_word_unpacked :
    sproto_unpack [1] 0 = .ok (8, []) ∧
      sproto_unpack [1] 8 = .error .undefined ∧
      ¬ ∀ src bufsz, Unpacked src bufsz := by
  have hscan : scan [1] = ([], .bits 1 []) :=
    scan_bits_of_none (by decide) rfl
  refine ⟨rfl, rfl, fun h => ?_⟩
  have hone := h [1] 0
  rw [Unpacked, hscan] at hone
  cases hone

end SkynetServer.SprotoPack
