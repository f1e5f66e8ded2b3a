import Mathlib.Data.Nat.Init
import SkynetServer.Sproto.Words

/-!
# Arrays of integers

The elements have four bytes each until one of them needs eight; then those
before it are widened in place.
-/

namespace SkynetServer.Sproto

open LittleEndian Memory

/-- The bytes of an element. -/
def integerWidth (xs : List (BitVec 64)) : ℕ :=
  if ∀ x ∈ xs, Narrow x then sizeofInt32 else sizeofInt64

def integersCode (w : ℕ) (xs : List (BitVec 64)) : List UInt8 :=
  xs.flatMap fun x => bytes w x.toNat

theorem integersCode_append (w : ℕ) (xs : List (BitVec 64)) (x : BitVec 64) :
    integersCode w (xs ++ [x]) = integersCode w xs ++ bytes w x.toNat := by
  rw [integersCode, integersCode, List.flatMap_append, List.flatMap_cons,
    List.flatMap_nil, List.append_nil]

@[simp] theorem length_integersCode (w : ℕ) (xs : List (BitVec 64)) :
    (integersCode w xs).length = xs.length * w := by
  induction xs with
  | nil => rw [List.length_nil, Nat.zero_mul]; rfl
  | cons x xs ih =>
      rw [integersCode, List.flatMap_cons, List.length_append, length_bytes,
        ← integersCode, ih, List.length_cons, Nat.succ_mul, Nat.add_comm]

/-! ## Widening in place -/

/-- The sign of four bytes is the top bit of the last. -/
theorem testBit_last (v : ℕ) (rest : List UInt8) :
    (((bytes 4 v ++ rest)[3]?).getD 0).toNat.testBit 7 =
      (v % 2 ^ 32).testBit 31 := by
  have hlast : (((bytes 4 v ++ rest)[3]?).getD 0) =
      UInt8.ofNat (v / 256 / 256 / 256) := rfl
  rw [hlast, UInt8.toNat_ofNat', Nat.testBit_eq_decide_div_mod_eq,
    Nat.testBit_eq_decide_div_mod_eq]
  congr 1
  rw [eq_iff_iff]
  omega

/-- The body of the loop that rearranges: the element `i` at its new place. -/
def moveElement (i : ℕ) (header : List UInt8) : List UInt8 :=
  let header := store header (1 + i * sizeofInt64)
    (load header (1 + i * sizeofInt32) sizeofInt32)
  let negative := (header.getD (1 + i * sizeofInt64 + 3) 0).toNat.testBit 7
  uint32ToUint64 negative header (1 + i * sizeofInt64)

/-- The loop that rearranges `n` elements, down to the element `i`. -/
def moved (n i : ℕ) (header : List UInt8) : List UInt8 :=
  (List.range' i (n - i)).foldr moveElement header

theorem moved_self (n : ℕ) (header : List UInt8) :
    moved n n header = header := by
  rw [moved, Nat.sub_self]
  rfl

theorem moved_succ {n i : ℕ} (hi : i < n) (header : List UInt8) :
    moved n i header = moveElement i (moved n (i + 1) header) := by
  have hcount : n - i = n - (i + 1) + 1 := by omega
  rw [moved, hcount, List.range'_succ, List.foldr_cons, moved]

theorem widen_eq_moved (n : ℕ) (header : List UInt8) :
    widen n header = moved n 0 header := by
  induction n generalizing header with
  | zero => rfl
  | succ n ih =>
      have hrest := ih (moveElement n header)
      rw [moved, Nat.sub_zero] at hrest ⊢
      rw [List.range'_concat, List.foldr_append, Nat.zero_add, Nat.one_mul]
      exact hrest

variable {header : List UInt8}

/-- The element gets its eight bytes; the cells outside of them stay. -/
theorem moveElement_spec
    {i : ℕ} {x : BitVec 64} (hx : Narrow x)
    (hroom : 1 + (i + 1) * 8 ≤ header.length)
    (hload : load header (1 + i * 4) 4 = bytes 4 x.toNat) :
    (moveElement i header).length = header.length ∧
      load (moveElement i header) (1 + i * 8) 8 = bytes 8 x.toNat ∧
      ∀ p k, p + k ≤ 1 + i * 8 ∨ 1 + (i + 1) * 8 ≤ p →
        load (moveElement i header) p k = load header p k := by
  -- the four bytes of the element at their new place
  have hone : (store header (1 + i * sizeofInt64)
      (load header (1 + i * sizeofInt32) sizeofInt32)) =
      store header (1 + i * 8) (bytes 4 x.toNat) :=
    congrArg (store header (1 + i * 8)) hload
  generalize hsecond : store header (1 + i * 8) (bytes 4 x.toNat) =
    second at hone
  have hfour := length_bytes 4 x.toNat
  have hfits : 1 + i * 8 + (bytes 4 x.toNat).length ≤ header.length := by
    omega
  have hlen : second.length = header.length := by
    rw [← hsecond, length_store hfits]
  have hlow : load second (1 + i * 8) 4 = bytes 4 x.toNat := by
    rw [← hsecond]
    have := load_store hfits
    rwa [hfour] at this
  have hsign : (second.getD (1 + i * sizeofInt64 + 3) 0).toNat.testBit 7 =
      (x.toNat % 2 ^ 32).testBit 31 := by
    have hget : second[1 + i * 8 + 3]? = (bytes 4 x.toNat)[3]? := by
      rw [← hlow, getElem?_load, if_pos (by omega)]
    have hbit := testBit_last x.toNat []
    rw [List.append_nil, ← hget] at hbit
    rw [List.getD_eq_getElem?_getD]
    exact hbit
  have hhigh := bytes_narrow hx
  generalize hext : (if (x.toNat % 2 ^ 32).testBit 31 then
    (0xff : UInt8) else 0) = ext at hhigh
  have hthird : moveElement i header =
      store second (1 + i * 8 + 4) (List.replicate 4 ext) := by
    rw [moveElement, hone, hsign, ← hext]
    rfl
  have hrep : (List.replicate 4 ext).length = 4 := List.length_replicate
  have hfits' : 1 + i * 8 + 4 + (List.replicate 4 ext).length ≤
      second.length := by omega
  have hhalf := load_store hfits'
  rw [hrep] at hhalf
  rw [hthird]
  refine ⟨(length_store hfits').trans hlen, ?_, fun p k hp => ?_⟩
  · rw [load_add _ (1 + i * 8) 4 4, hhalf,
      load_store_of_disjoint hfits' (by omega), hlow, hhigh]
  · rw [load_store_of_disjoint hfits' (by omega), ← hsecond,
      load_store_of_disjoint hfits (by omega)]

/-- When the loop comes down to the element `i`, those before it are as they
were, and the others have eight bytes. -/
theorem moved_spec
    {n i : ℕ} {xs : List (BitVec 64)}
    (hlength : xs.length = n) (hnarrow : ∀ x ∈ xs, Narrow x)
    (hroom : 1 + n * 8 ≤ header.length)
    (hload : load header 1 (n * 4) = integersCode 4 xs) (hi : i ≤ n) :
    (moved n i header).length = header.length ∧
      load (moved n i header) 1 (i * 4) = integersCode 4 (xs.take i) ∧
      load (moved n i header) (1 + i * 8) ((n - i) * 8) =
        integersCode 8 (xs.drop i) ∧
      ∀ p k, 1 + n * 8 ≤ p → load (moved n i header) p k = load header p k := by
  induction hi using Nat.decreasingInduction with
  | self =>
      rw [moved_self, Nat.sub_self, ← hlength, List.take_length,
        List.drop_length, hlength]
      exact ⟨rfl, hload, List.take_zero, fun _ _ _ => rfl⟩
  | of_succ i hi ih =>
      obtain ⟨hlen, hbefore, hbehind, hframe⟩ := ih
      have hix : i < xs.length := by omega
      have htake : xs.take (i + 1) = xs.take i ++ [xs[i]] :=
        List.take_succ_eq_append_getElem hix
      have htake_length : (xs.take i).length = i := by
        rw [List.length_take]
        omega
      rw [htake, integersCode_append, Nat.succ_mul, load_add] at hbefore
      have hinj := List.append_inj hbefore (by
        rw [length_load (by omega), length_integersCode, htake_length])
      obtain ⟨hmlen, hmload, hmframe⟩ := moveElement_spec
        (hnarrow _ (List.getElem_mem hix)) (by omega) hinj.2
      have hcount : (n - i) * 8 = 8 + (n - (i + 1)) * 8 := by omega
      have hnext : 1 + i * 8 + 8 = 1 + (i + 1) * 8 := by omega
      rw [moved_succ hi]
      refine ⟨hmlen.trans hlen, ?_, ?_, fun p k hp => ?_⟩
      · rw [hmframe _ _ (by omega)]
        exact hinj.1
      · rw [hcount, load_add, hmload, hnext, hmframe _ _ (by omega), hbehind,
          List.drop_eq_getElem_cons hix, integersCode, integersCode,
          List.flatMap_cons]
      · rw [hmframe p k (by omega), hframe p k hp]

/-- The elements are widened; the cells behind them stay. -/
theorem widen_spec
    {n : ℕ} {xs : List (BitVec 64)}
    (hlength : xs.length = n) (hnarrow : ∀ x ∈ xs, Narrow x)
    (hroom : 1 + n * 8 ≤ header.length)
    (hload : load header 1 (n * 4) = integersCode 4 xs) :
    (widen n header).length = header.length ∧
      load (widen n header) 1 (n * 8) = integersCode 8 xs ∧
      ∀ p k, 1 + n * 8 ≤ p → load (widen n header) p k = load header p k := by
  obtain ⟨hlen, -, hbehind, hframe⟩ :=
    moved_spec hlength hnarrow hroom hload (Nat.zero_le n)
  rw [Nat.zero_mul, Nat.add_zero, Nat.sub_zero, List.drop_zero] at hbehind
  rw [widen_eq_moved]
  exact ⟨hlen, hbehind, hframe⟩

/-! ## Widening inside a block -/

section Blocks

variable {header : List UInt8} {i n : ℕ}

theorem uint32ToUint64_append
    {p : ℕ} (h : p + 8 ≤ header.length) (negative : Bool)
    (outside : List UInt8) :
    uint32ToUint64 negative (header ++ outside) p =
      uint32ToUint64 negative header p ++ outside := by
  refine store_append_left ?_ outside
  rw [List.length_replicate]
  omega

theorem length_uint32ToUint64
    {p : ℕ} (h : p + 8 ≤ header.length) (negative : Bool) :
    (uint32ToUint64 negative header p).length = header.length := by
  refine length_store ?_
  rw [List.length_replicate]
  omega

theorem moveElement_append
    (h : 1 + (i + 1) * 8 ≤ header.length) (outside : List UInt8) :
    moveElement i (header ++ outside) = moveElement i header ++ outside ∧
      (moveElement i header).length = header.length := by
  have hlen : (load header (1 + i * sizeofInt32) sizeofInt32).length = 4 := by
    refine length_load ?_
    rw [sizeofInt32]
    omega
  have hfits : 1 + i * sizeofInt64 +
      (load header (1 + i * sizeofInt32) sizeofInt32).length ≤
      header.length := by
    rw [hlen, sizeofInt64]
    omega
  have hstore := length_store hfits
  have hbyte : 1 + i * sizeofInt64 + 3 < header.length := by
    rw [sizeofInt64]
    omega
  have hsign : 1 + i * sizeofInt64 + 8 ≤ (store header (1 + i * sizeofInt64)
      (load header (1 + i * sizeofInt32) sizeofInt32)).length := by
    rw [hstore, sizeofInt64]
    omega
  constructor
  · rw [moveElement, load_append_left (by rw [sizeofInt32]; omega),
      store_append_left hfits, List.getD_eq_getElem?_getD,
      List.getElem?_append_left (by rw [hstore]; exact hbyte),
      uint32ToUint64_append hsign, moveElement, List.getD_eq_getElem?_getD]
  · rw [moveElement, length_uint32ToUint64 hsign, hstore]

theorem moved_append
    (h : 1 + n * 8 ≤ header.length) (outside : List UInt8) (hi : i ≤ n) :
    moved n i (header ++ outside) = moved n i header ++ outside ∧
      (moved n i header).length = header.length := by
  induction hi using Nat.decreasingInduction with
  | self =>
      rw [moved_self, moved_self]
      exact ⟨rfl, rfl⟩
  | of_succ i hi ih =>
      obtain ⟨heq, hlen⟩ := ih
      obtain ⟨heq', hlen'⟩ := moveElement_append (i := i)
        (by rw [hlen]; omega) outside
      rw [moved_succ hi, moved_succ hi, heq]
      exact ⟨heq', hlen'.trans hlen⟩

end Blocks

/-! ## The loop -/

/-- The elements that are in the buffer, with `w` bytes each. -/
structure Holds
    (a : IntegerArray) (xs : List (BitVec 64)) (w size : ℕ) : Prop where
  length : a.header.length = size
  index : a.index = xs.length + 1
  intlen : a.intlen = w
  buffer : a.buffer = 1 + xs.length * w
  room : a.buffer ≤ size
  elements : load a.header 1 (xs.length * w) = integersCode w xs

section Loop

variable {a : IntegerArray} {xs : List (BitVec 64)} {w size : ℕ}
  {x : BitVec 64}

/-- One more element was written at `buffer`. -/
theorem Holds.snoc
    {header : List UInt8} (h : Holds a xs w size) (hroom : a.buffer + w ≤ size)
    (hlength : header.length = size)
    (hold : ∀ k, 1 + k ≤ a.buffer → load header 1 k = load a.header 1 k)
    (hnew : load header a.buffer w = bytes w x.toNat) :
    Holds ⟨header, a.buffer + a.intlen, a.intlen, a.index + 1⟩ (xs ++ [x]) w
      size := by
  have hxs : (xs ++ [x]).length = xs.length + 1 := by
    rw [List.length_append, List.length_singleton]
  have hbuffer := h.buffer
  refine ⟨hlength, ?_, h.intlen, ?_, ?_, ?_⟩
  · rw [hxs, ← h.index]
  · rw [hxs, h.intlen, hbuffer, Nat.succ_mul, Nat.add_assoc]
  · dsimp only
    rw [h.intlen]
    exact hroom
  · rw [hxs, Nat.succ_mul, load_add, hold _ (by omega), h.elements, ← hbuffer,
      hnew, integersCode_append]

/-- Four bytes are written for an element that is the same in 32 bits. -/
theorem putInteger_narrow
    (h : Holds a xs w size) (hw : w = 4 ∨ w = 8) (hx : Narrow x)
    {u : List UInt8} (hu : todword u = x.toNat % 2 ^ 32) :
    putInteger a 4 u = none ∧ size < a.buffer + 8 ∨
      ∃ a', putInteger a 4 u = some a' ∧ Holds a' (xs ++ [x]) w size := by
  have hlength := h.length
  have hbuffer := h.buffer
  have hroom := h.room
  unfold putInteger
  split
  · rename_i hsmall
    refine .inl ⟨rfl, ?_⟩
    rw [hlength, sizeofInt64] at hsmall
    omega
  · rename_i hsmall
    rw [hlength, sizeofInt64] at hsmall
    refine .inr ⟨_, if_pos rfl, ?_⟩
    have hfour : bytes 4 (todword u) = bytes 4 x.toNat := by
      rw [hu]
      exact bytes_mod 4 x.toNat
    have hfits : a.buffer + (bytes 4 x.toNat).length ≤ a.header.length := by
      rw [length_bytes]
      omega
    have hlow := load_store hfits
    rw [length_bytes] at hlow
    rcases hw with rfl | rfl
    · have hne : ¬ a.intlen = sizeofInt64 := by
        rw [h.intlen]
        decide
      rw [if_neg hne, hfour]
      refine h.snoc (by omega) (by rw [length_store hfits, hlength])
        (fun k hk => ?_) hlow
      rw [load_store_of_disjoint hfits (.inl hk)]
    · have height : a.intlen = sizeofInt64 := h.intlen
      rw [if_pos height, hfour, hu, uint32ToUint64]
      have hhigh := bytes_narrow hx
      generalize List.replicate 4 (if (x.toNat % 2 ^ 32).testBit 31 then
        (0xff : UInt8) else 0) = ext at hhigh ⊢
      have hext : ext.length = 4 := by
        have := congrArg List.length hhigh
        rw [List.length_append, length_bytes, length_bytes] at this
        omega
      have hfits' : a.buffer + 4 + ext.length ≤
          (store a.header a.buffer (bytes 4 x.toNat)).length := by
        rw [length_store hfits]
        omega
      refine h.snoc (by omega) ?_ (fun k hk => ?_) ?_
      · rw [length_store hfits', length_store hfits, hlength]
      · rw [load_store_of_disjoint hfits' (.inl (by omega)),
          load_store_of_disjoint hfits (.inl hk)]
      · have hload := load_store hfits'
        rw [hext] at hload
        rw [load_add _ a.buffer 4 4, hload,
          load_store_of_disjoint hfits' (.inl (Nat.le_refl _)), hlow, hhigh]

/-- The elements so far have eight bytes after the rearrangement. -/
theorem rearrange_spec
    (h : Holds a xs w size) (hw : w = integerWidth xs) :
    rearrange a = none ∧ size < 1 + xs.length * 8 + 8 ∨
      ∃ a', rearrange a = some a' ∧ Holds a' xs 8 size ∧
        (a.buffer + 8 ≤ size → a'.buffer + 8 ≤ size) := by
  have hlength := h.length
  have hindex : a.index - 1 = xs.length := by
    rw [h.index]
    omega
  unfold rearrange
  split
  · rename_i hfour
    have hw4 : w = 4 := h.intlen.symm.trans hfour
    have hbuffer := h.buffer
    have hnarrow : ∀ x ∈ xs, Narrow x := by
      by_contra hwide
      rw [integerWidth, if_neg hwide, hw4] at hw
      exact absurd hw (by decide)
    rw [hindex]
    dsimp only
    rw [hlength, sizeofInt64, sizeofInt32]
    subst hw4
    split
    · exact .inl ⟨rfl, by omega⟩
    · refine .inr ⟨_, rfl, ?_, fun _ => by dsimp only; omega⟩
      obtain ⟨hlen, hload, -⟩ := widen_spec rfl hnarrow (by omega) h.elements
      refine ⟨hlen.trans hlength, h.index, rfl, ?_, ?_, hload⟩
      · dsimp only
        omega
      · dsimp only
        omega
  · rename_i hne
    have hw8 : w = 8 := by
      rw [integerWidth] at hw
      split at hw
      · exact absurd (h.intlen.trans hw) hne
      · exact hw
    subst hw8
    exact .inr ⟨a, rfl, h, id⟩

/-- Eight bytes are written for any other element. -/
theorem putInteger_wide
    (h : Holds a xs w size) (hw : w = integerWidth xs)
    {u : List UInt8} (hu : u.take 8 = bytes 8 x.toNat) :
    putInteger a 8 u = none ∧ size < 1 + xs.length * 8 + 8 ∨
      ∃ a', putInteger a 8 u = some a' ∧ Holds a' (xs ++ [x]) 8 size := by
  have hlength := h.length
  have hbuffer := h.buffer
  have hroom := h.room
  have hle : w ≤ 8 := by
    rw [hw, integerWidth]
    split
    all_goals decide
  have hmul : xs.length * w ≤ xs.length * 8 := Nat.mul_le_mul_left _ hle
  unfold putInteger
  split
  · rename_i hsmall
    refine .inl ⟨rfl, ?_⟩
    rw [hlength, sizeofInt64] at hsmall
    omega
  · rename_i hsmall
    rw [hlength, sizeofInt64] at hsmall
    rw [if_neg (by decide), if_neg (by decide)]
    rcases rearrange_spec h hw with ⟨hnone, hlt⟩ | ⟨a', hsome, hholds, hfits⟩
    · rw [hnone]
      exact .inl ⟨rfl, hlt⟩
    · rw [hsome]
      refine .inr ⟨_, rfl, ?_⟩
      have hend := hfits (by omega)
      have hlength' := hholds.length
      rw [hu, number_bytes_of_lt x.isLt]
      have hstore : a'.buffer + (bytes 8 x.toNat).length ≤
          a'.header.length := by
        rw [length_bytes]
        omega
      have hnew := load_store hstore
      rw [length_bytes] at hnew
      refine hholds.snoc hend (by rw [length_store hstore, hlength'])
        (fun k hk => ?_) hnew
      rw [load_store_of_disjoint hstore (.inl hk)]

end Loop

end SkynetServer.Sproto
