import SkynetServer.Sproto.Arrays

/-!
# Arrays of integers with the size that is left

`encode_integer_array` on a memory that goes on behind the buffer.  It counts
the size that is left, which has to be corrected when the elements before the
first large one are widened; the memory is also known where it returns `NULL`.
-/

namespace SkynetServer.Sproto.Sized

open LittleEndian Memory

/-- The variables of the loop; the memory is that from `header` on, and `buffer`
is relative to it. -/
structure Elements where
  memory : List UInt8
  buffer : ℕ
  size : ℤ
  intlen : ℕ
  index : ℕ

/-- The elements so far, with eight bytes each; or `NULL`, with the memory. -/
def rearrange (a : Elements) : Except (List UInt8) Elements :=
  if a.intlen = sizeofInt32 then
    let size := a.size - (a.index - 1 : ℕ) * sizeofInt32
    if size < sizeofInt64 then .error a.memory
    else
      .ok ⟨moved (a.index - 1) 0 a.memory,
        a.buffer + (a.index - 1) * sizeofInt32, size, sizeofInt64, a.index⟩
  else .ok a

/-- The rest of the body of the loop, for an element of `sz` bytes. -/
def putInteger (a : Elements) (sz : ℕ) (u : List UInt8) :
    Except (List UInt8) Elements :=
  if a.size < sizeofInt64 then .error a.memory
  else if sz = sizeofInt32 then
    let v := todword u
    let memory := store a.memory a.buffer (bytes 4 v)
    let memory :=
      if a.intlen = sizeofInt64 then
        uint32ToUint64 (v.testBit 31) memory a.buffer
      else memory
    .ok ⟨memory, a.buffer + a.intlen, a.size - a.intlen, a.intlen, a.index + 1⟩
  else if sz ≠ sizeofInt64 then .error a.memory
  else
    (rearrange a).map fun a =>
      ⟨store a.memory a.buffer (bytes 8 (number (u.take 8))),
        a.buffer + a.intlen, a.size - a.intlen, a.intlen, a.index + 1⟩

section Encode

variable {σ : Type} (cb : Arg → σ → Except Failure (Reply σ))

/-- The loop of `encode_integer_array`.  Each turn takes at least four bytes of
the size. -/
def encodeIntegers (args : Arg) : ℕ → Elements → σ →
    Except Failure (Except (List UInt8) (Elements × Bool × σ))
  | 0, a, _ => .ok (.error a.memory)
  | fuel + 1, a, ud =>
    (cb { args with value := List.replicate 8 0, index := a.index } ud).bind fun
      | .nil ud => .ok (.ok (a, false, ud))
      | .noarray ud => .ok (.ok (a, true, ud))
      | .size sz u ud =>
        match putInteger a sz u with
        | .error memory => .ok (.error memory)
        | .ok a => encodeIntegers args fuel a ud
      | .error => .ok (.error a.memory)

/-- The memory after the call, and where the elements end with `noarray`, or
nothing for `NULL`. -/
def encodeIntegerArray (args : Arg) (header : List UInt8) (size : ℤ) (ud : σ) :
    Except Failure (List UInt8 × Option (ℕ × Bool × σ)) :=
  if size < 1 then .ok (header, none)
  else
    (encodeIntegers cb args size.toNat ⟨header, 1, size - 1, sizeofInt32, 1⟩
      ud).map fun
      | .error memory => (memory, none)
      | .ok (a, noarray, ud) =>
        if a.buffer = 1 then (a.memory, some (0, noarray, ud))
        else
          (store a.memory 0 [UInt8.ofNat a.intlen],
            some (a.buffer, noarray, ud))

end Encode

/-- A callback that gives the integers of a list, as that of `lsproto.c` does:
in four bytes those that are the same in 32 bits. -/
def feed (xs : List (BitVec 64)) (args : Arg) (ud : Unit) :
    Except Failure (Reply Unit) :=
  match xs[(args.index - 1).toNat]? with
  | none => .ok (.nil ud)
  | some x =>
    if Narrow x then .ok (.size 4 (store args.value 0 (bytes 4 x.toNat)) ud)
    else .ok (.size 8 (store args.value 0 (bytes 8 x.toNat)) ud)

/-- A callback that notes what it is called with. -/
def collect (args : Arg) (calls : List (ℤ × List UInt8)) :
    Except Failure (ℤ × List (ℤ × List UInt8)) :=
  .ok (0, calls ++ [(args.index, args.value)])

/-- The calls for the elements from the index `i + 1` on. -/
def callsFrom : ℕ → List (BitVec 64) → List (ℤ × List UInt8)
  | _, [] => []
  | i, x :: xs => ((i : ℤ) + 1, bytes 8 x.toNat) :: callsFrom (i + 1) xs

/-- The calls that give the list; an empty one is given by a call of its own. -/
def calls (xs : List (BitVec 64)) : List (ℤ × List UInt8) :=
  if xs = [] then [(-1, [])] else callsFrom 0 xs

/-! ## The size that is left -/

/-- The elements are in a block, with the right size behind them and other bytes
behind the block. -/
structure Refines (b : Elements) (a : IntegerArray) (outside : List UInt8) :
    Prop where
  memory : b.memory = a.header ++ outside
  buffer : b.buffer = a.buffer
  size : b.size = a.header.length - a.buffer
  intlen : b.intlen = a.intlen
  index : b.index = a.index

section Simulation

variable {b : Elements} {a a' : IntegerArray} {outside : List UInt8}
variable {xs : List (BitVec 64)} {w size sz : ℕ} {u : List UInt8}

theorem Refines.rearrange
    (h : Refines b a outside) (hholds : Holds a xs w size) :
    (Sproto.rearrange a = none →
      Sized.rearrange b = .error (a.header ++ outside)) ∧
    ∀ a', Sproto.rearrange a = some a' →
      ∃ b', Sized.rearrange b = .ok b' ∧ Refines b' a' outside ∧
        a'.header.length = a.header.length := by
  have hbuffer := hholds.buffer
  have hindex := hholds.index
  have hintlen := hholds.intlen
  have hroom := hholds.room
  have hlength := hholds.length
  unfold Sproto.rearrange Sized.rearrange
  rw [h.intlen]
  by_cases hfour : a.intlen = sizeofInt32
  · have hw : w = 4 := hintlen.symm.trans hfour
    subst hw
    have hsize := h.size
    rw [if_pos hfour, if_pos hfour, h.index, h.memory, h.buffer]
    dsimp only
    have hcond : b.size - (a.index - 1 : ℕ) * sizeofInt32 < sizeofInt64 ↔
        a.header.length - (a.buffer + (a.index - 1) * sizeofInt32) <
          sizeofInt64 := by
      rw [hsize, sizeofInt32, sizeofInt64]
      omega
    by_cases hsmall : a.header.length -
        (a.buffer + (a.index - 1) * sizeofInt32) < sizeofInt64
    · rw [if_pos hsmall, if_pos (hcond.mpr hsmall)]
      exact ⟨fun _ => rfl, fun a' ha' => by cases ha'⟩
    · rw [if_neg hsmall, if_neg fun hlt => hsmall (hcond.mp hlt)]
      refine ⟨fun hnone => (by cases hnone), fun a' ha' => ?_⟩
      cases ha'
      rw [sizeofInt32, sizeofInt64] at hsmall
      obtain ⟨heq, hlen⟩ := @moved_append a.header 0 (a.index - 1)
        (by omega) outside (Nat.zero_le _)
      refine ⟨_, rfl, ⟨?_, rfl, ?_, rfl, rfl⟩, ?_⟩
      · dsimp only
        rw [heq, widen_eq_moved]
      · dsimp only
        rw [widen_eq_moved, hlen, hsize, sizeofInt32]
        omega
      · dsimp only
        rw [widen_eq_moved, hlen]
  · rw [if_neg hfour, if_neg hfour]
    refine ⟨fun hnone => (by cases hnone), fun a' ha' => ?_⟩
    cases ha'
    exact ⟨b, rfl, h, rfl⟩

theorem Refines.putInteger
    (h : Refines b a outside) (hholds : Holds a xs w size) :
    (Sproto.putInteger a sz u = none →
      Sized.putInteger b sz u = .error (a.header ++ outside)) ∧
    ∀ a', Sproto.putInteger a sz u = some a' →
      ∃ b', Sized.putInteger b sz u = .ok b' ∧ Refines b' a' outside := by
  have hroom := hholds.room
  have hlength := hholds.length
  have hintlen := hholds.intlen
  have hsize := h.size
  unfold Sproto.putInteger Sized.putInteger
  have hcond : b.size < sizeofInt64 ↔
      a.header.length - a.buffer < sizeofInt64 := by
    rw [hsize, sizeofInt64]
    omega
  rw [h.memory, h.buffer, h.intlen, h.index]
  by_cases hsmall : a.header.length - a.buffer < sizeofInt64
  · rw [if_pos hsmall, if_pos (hcond.mpr hsmall)]
    exact ⟨fun _ => rfl, fun a' ha' => by cases ha'⟩
  rw [if_neg hsmall, if_neg fun hlt => hsmall (hcond.mp hlt)]
  rw [sizeofInt64] at hsmall
  by_cases hfour : sz = sizeofInt32
  · rw [if_pos hfour, if_pos hfour]
    refine ⟨fun hnone => (by cases hnone), fun a' ha' => ?_⟩
    cases ha'
    have hfits : a.buffer + (bytes 4 (todword u)).length ≤ a.header.length := by
      rw [length_bytes]
      omega
    have hstore := length_store hfits
    have hboth : (if a.intlen = sizeofInt64 then
        uint32ToUint64 ((todword u).testBit 31)
          (store (a.header ++ outside) a.buffer (bytes 4 (todword u))) a.buffer
        else store (a.header ++ outside) a.buffer (bytes 4 (todword u))) =
        (if a.intlen = sizeofInt64 then
          uint32ToUint64 ((todword u).testBit 31)
            (store a.header a.buffer (bytes 4 (todword u))) a.buffer
          else store a.header a.buffer (bytes 4 (todword u))) ++ outside ∧
        (if a.intlen = sizeofInt64 then
          uint32ToUint64 ((todword u).testBit 31)
            (store a.header a.buffer (bytes 4 (todword u))) a.buffer
          else store a.header a.buffer (bytes 4 (todword u))).length =
          a.header.length := by
      rw [store_append_left hfits]
      split
      · exact ⟨uint32ToUint64_append (by rw [hstore]; omega) _ _,
          (length_uint32ToUint64 (by rw [hstore]; omega) _).trans hstore⟩
      · exact ⟨rfl, hstore⟩
    refine ⟨_, rfl, hboth.1, rfl, ?_, rfl, rfl⟩
    dsimp only
    rw [hboth.2, hsize]
    omega
  · rw [if_neg hfour, if_neg hfour]
    by_cases height : sz = sizeofInt64
    · rw [if_neg (not_not.mpr height), if_neg (not_not.mpr height)]
      obtain ⟨hnone, hsome⟩ := h.rearrange hholds
      cases hrearrange : Sproto.rearrange a with
      | none =>
          rw [hnone hrearrange]
          exact ⟨fun _ => rfl, fun a' ha' => by cases ha'⟩
      | some a₁ =>
          obtain ⟨b₁, hb₁, hrefines, hlen⟩ := hsome a₁ hrearrange
          rw [hb₁]
          refine ⟨fun hnone => (by cases hnone), fun a' ha' => ?_⟩
          cases ha'
          have hend : a₁.buffer + 8 ≤ a₁.header.length := by
            unfold Sproto.rearrange at hrearrange
            split at hrearrange
            · dsimp only at hrearrange
              split at hrearrange
              · cases hrearrange
              · rename_i hroom'
                cases hrearrange
                rw [hlen]
                rw [sizeofInt64] at hroom'
                dsimp only
                omega
            · cases hrearrange
              omega
          have hfits : a₁.buffer + (bytes 8 (number (u.take 8))).length ≤
              a₁.header.length := by
            rw [length_bytes]
            exact hend
          refine ⟨_, rfl, ?_, ?_, ?_, ?_, ?_⟩
          · dsimp only
            rw [hrefines.memory, hrefines.buffer, store_append_left hfits]
          · dsimp only
            rw [hrefines.buffer, hrefines.intlen]
          · dsimp only
            rw [length_store hfits, hrefines.size, hrefines.intlen]
            omega
          · exact hrefines.intlen
          · dsimp only
            rw [hrefines.index]
    · rw [if_pos height, if_pos height]
      exact ⟨fun _ => rfl, fun a' ha' => by cases ha'⟩

end Simulation

/-! ## The loop -/

section Loop

variable {args : Arg} {xs done : List (BitVec 64)} {outside : List UInt8}

theorem feed_nil (value : List UInt8) :
    feed done { args with value := value, index := (done.length + 1 : ℕ) } () =
      .ok (.nil ()) := by
  have hindex : (((done.length + 1 : ℕ) : ℤ) - 1).toNat = done.length := by
    omega
  rw [feed, hindex, List.getElem?_eq_none (Nat.le_refl _)]

theorem feed_cons (x : BitVec 64) (value : List UInt8) :
    feed (done ++ x :: xs)
        { args with value := value, index := (done.length + 1 : ℕ) } () =
      .ok (if Narrow x then .size 4 (store value 0 (bytes 4 x.toNat)) ()
        else .size 8 (store value 0 (bytes 8 x.toNat)) ()) := by
  have hindex : (((done.length + 1 : ℕ) : ℤ) - 1).toNat = done.length := by
    omega
  rw [feed, hindex, List.getElem?_append_right (Nat.le_refl _), Nat.sub_self,
    List.getElem?_cons_zero, apply_ite Except.ok]

/-- The loop returns `NULL` only where the elements may not fit, or it ends with
the elements in the block. -/
theorem encodeIntegers_spec
    {b : Elements} {a : IntegerArray} {size fuel : ℕ}
    (h : Refines b a outside) (hholds : Holds a done (integerWidth done) size)
    (hfuel : size ≤ fuel + done.length) :
    (∃ header, encodeIntegers (feed (done ++ xs)) args fuel b () =
        .ok (.error (header ++ outside)) ∧ header.length = size ∧
        size < 1 + (done.length + xs.length) * 8) ∨
      ∃ b' a', encodeIntegers (feed (done ++ xs)) args fuel b () =
        .ok (.ok (b', false, ())) ∧ Refines b' a' outside ∧
        Holds a' (done ++ xs) (integerWidth (done ++ xs)) size := by
  have hlt := hholds.length_lt
  induction xs generalizing done b a fuel with
  | nil =>
      cases fuel with
      | zero => omega
      | succ fuel =>
          refine .inr ⟨b, a, ?_, h, ?_⟩
          · rw [encodeIntegers, h.index, hholds.index, List.append_nil,
              feed_nil]
            rfl
          · rw [List.append_nil]
            exact hholds
  | cons x xs ih =>
      cases fuel with
      | zero => omega
      | succ fuel =>
          obtain ⟨sz, u, hunion, hput⟩ := putInteger_union hholds x
          obtain ⟨hnone, hsome⟩ := @h.putInteger _ _ _ _ _ _ sz u hholds
          rw [encodeIntegers, h.index, hholds.index, feed_cons, hunion]
          dsimp only [Except.bind]
          rw [List.length_cons]
          rcases hput with ⟨hput, hsmall⟩ | ⟨a', hput, hholds'⟩
          · rw [hnone hput]
            exact .inl ⟨a.header, rfl, hholds.length, by omega⟩
          · obtain ⟨b', hb', hrefines⟩ := hsome a' hput
            have hdone : (done ++ [x]).length = done.length + 1 := by
              rw [List.length_append, List.length_singleton]
            have hrest := @ih (done ++ [x]) b' a' fuel hrefines hholds'
              (by rw [hdone]; omega) hholds'.length_lt
            rw [hdone, List.append_assoc] at hrest
            rw [hb']
            rcases hrest with ⟨header, heq, hlen, hsmall⟩ | hend
            · exact .inl ⟨header, heq, hlen, by omega⟩
            · exact .inr hend

end Loop

/-! ## The list is given back -/

section Decode

variable {args : Arg} {xs : List (BitVec 64)}

theorem decodeNumbers_collect
    {len : ℕ} (hlen : len = 4 ∨ len = 8)
    (hnarrow : len = 4 → ∀ x ∈ xs, Narrow x) (rest : List UInt8) (i : ℕ)
    (cs : List (ℤ × List UInt8)) :
    decodeNumbers collect args len (integerAt len) xs.length
      (integersCode len xs ++ rest) i cs = .ok (cs ++ callsFrom i xs) := by
  induction xs generalizing i cs with
  | nil => rw [callsFrom, List.append_nil]; rfl
  | cons x xs ih =>
      have hat : ∀ rest, integerAt len (bytes len x.toNat ++ rest) =
          x.toNat := by
        rcases hlen with rfl | rfl
        · exact integerAt_four (hnarrow rfl x List.mem_cons_self)
        · exact integerAt_eight x
      have hrest := ih
        (fun h y hy => hnarrow h y (List.mem_cons_of_mem _ hy)) (i + 1)
        (cs ++ [((i : ℤ) + 1, bytes 8 x.toNat)])
      rw [List.length_cons, decodeNumbers, integersCode, List.flatMap_cons,
        List.append_assoc, hat, collect]
      dsimp only [Except.bind]
      rw [List.drop_left' (length_bytes len _)]
      rw [List.append_assoc] at hrest
      exact hrest

theorem length_integersBlock (hxs : xs ≠ []) :
    (integersBlock xs).length = 1 + xs.length * integerWidth xs := by
  obtain ⟨x, ys, rfl⟩ := List.exists_cons_of_ne_nil hxs
  rw [integersBlock, List.length_cons, length_integersCode, Nat.add_comm]

theorem decodeArray_collect
    (hlength : (integersBlock xs).length < 2 ^ 32) (rest : List UInt8) :
    decodeArray collect { args with type := .integer }
      (bytes 4 (integersBlock xs).length ++ (integersBlock xs ++ rest)) [] =
        .ok (some (calls xs)) := by
  have hsz := todword_bytes (integersBlock xs).length
    (integersBlock xs ++ rest)
  rw [Nat.mod_eq_of_lt hlength] at hsz
  unfold decodeArray
  rw [hsz]
  dsimp only
  cases xs with
  | nil => rfl
  | cons x xs =>
      have hlen := length_integersBlock (List.cons_ne_nil x xs)
      have hw := integerWidth_cases (x :: xs)
      have hnarrow : integerWidth (x :: xs) = 4 → ∀ y ∈ x :: xs, Narrow y := by
        intro h4
        by_contra hwide
        rw [integerWidth, if_neg hwide] at h4
        exact absurd h4 (by decide)
      have hnumber : number (List.take 1
          (integersBlock (x :: xs) ++ rest)) = integerWidth (x :: xs) := by
        have htake : List.take 1 (integersBlock (x :: xs) ++ rest) =
            [UInt8.ofNat (integerWidth (x :: xs))] := rfl
        rw [htake]
        rcases hw with h | h
        · rw [h]
          rfl
        · rw [h]
          rfl
      have hdrop : List.drop 1 (integersBlock (x :: xs) ++ rest) =
          integersCode (integerWidth (x :: xs)) (x :: xs) ++ rest := rfl
      rw [if_neg (by omega), sizeofLength, List.drop_left' (length_bytes 4 _),
        hnumber, hdrop, sizeofInt32, sizeofInt64, if_pos hw, hlen,
        Nat.add_sub_cancel_left,
        Nat.mul_mod_left, if_neg (not_not_intro rfl),
        Nat.mul_div_cancel _ (by omega),
        decodeNumbers_collect hw hnarrow rest 0 []]
      rfl

end Decode

theorem narrow_iff_toInt (x : BitVec 64) :
    Narrow x ↔ -0x80000000 ≤ x.toInt ∧ x.toInt < 0x80000000 := by
  have hx := x.isLt
  rw [narrow_iff, BitVec.toInt_eq_toNat_cond]
  split
  · omega
  · omega

theorem integerWidth_eq (xs : List (BitVec 64)) :
    integerWidth xs =
      if ∀ x ∈ xs, -0x80000000 ≤ x.toInt ∧ x.toInt < 0x80000000 then 4
      else 8 := by
  have hall : (∀ x ∈ xs, Narrow x) ↔
      ∀ x ∈ xs, -0x80000000 ≤ x.toInt ∧ x.toInt < 0x80000000 :=
    forall₂_congr fun x _ => narrow_iff_toInt x
  rw [integerWidth, sizeofInt32, sizeofInt64]
  by_cases h : ∀ x ∈ xs, Narrow x
  · rw [if_pos h, if_pos (hall.mp h)]
  · rw [if_neg h, if_neg fun h' => h (hall.mpr h')]

/-- The block that the elements were written to, with their width in front. -/
theorem load_header
    {a : IntegerArray} {xs : List (BitVec 64)} {size : ℕ}
    (h : Holds a xs (integerWidth xs) size) (hxs : xs ≠ []) :
    load (store a.header 0 [UInt8.ofNat a.intlen]) 0
      (integersBlock xs).length = integersBlock xs := by
  have hbuffer := h.buffer
  have hroom := h.room
  have hlength := h.length
  have hfits : 0 + [UInt8.ofNat a.intlen].length ≤ a.header.length := by
    rw [List.length_singleton]
    omega
  have hone := load_store hfits
  have hbehind := load_store_of_disjoint (q := 1)
    (n := xs.length * integerWidth xs) hfits (.inr (Nat.le_refl _))
  rw [List.length_singleton] at hone
  rw [length_integersBlock hxs, load_add, hone, Nat.zero_add, hbehind,
    h.elements, h.intlen]
  obtain ⟨x, ys, rfl⟩ := List.exists_cons_of_ne_nil hxs
  rw [integersBlock, List.singleton_append]

/-- Nothing is written behind the size.  The function returns `NULL`, only where
the elements with eight bytes each do not fit, or the elements are in the block
with the least width that holds them, and `decode_array` gives them back.  While
the elements are widened, those that were not moved yet stay. -/
theorem encodeIntegerArray_spec
    (xs : List (BitVec 64)) (args : Arg) (size : BitVec 32)
    (memory : List UInt8) (hsize : size.toInt ≤ memory.length) :
    (∃ memory' result,
      encodeIntegerArray (feed xs) args memory size.toInt () =
        .ok (memory', result) ∧
      memory'.length = memory.length ∧
      memory'.drop size.toInt.toNat = memory.drop size.toInt.toNat ∧
      (result = none ∧ size.toInt < 1 + xs.length * 8 ∨
        ∃ stop, result = some (stop, false, ()) ∧ stop ≤ size.toInt.toNat ∧
          stop = (if xs = [] then 0 else 1 + xs.length *
            if ∀ x ∈ xs, -0x80000000 ≤ x.toInt ∧ x.toInt < 0x80000000 then 4
            else 8) ∧
          load memory' 0 stop = integersBlock xs ∧
          ∀ rest, decodeArray collect { args with type := .integer }
            (bytes 4 stop ++ (load memory' 0 stop ++ rest)) [] =
              .ok (some (calls xs)))) ∧
      ∀ (ys : List (BitVec 64)) (header : List UInt8) (i : ℕ),
        (∀ y ∈ ys, Narrow y) → 1 + ys.length * 8 ≤ header.length →
        load header 1 (ys.length * 4) = integersCode 4 ys → i ≤ ys.length →
        load (moved ys.length i header) 1 (i * 4) =
            integersCode 4 (ys.take i) ∧
          load (moved ys.length i header) (1 + i * 8) ((ys.length - i) * 8) =
            integersCode 8 (ys.drop i) := by
  refine ⟨?_, fun ys header i hnarrow hroom hload hi => ?_⟩
  · by_cases hsmall : size.toInt < 1
    · refine ⟨memory, none, if_pos hsmall, rfl, rfl, .inl ⟨rfl, ?_⟩⟩
      omega
    obtain ⟨n, hn⟩ : ∃ n : ℕ, size.toInt = n :=
      Int.eq_ofNat_of_zero_le (by omega)
    have hbound := BitVec.toInt_lt (x := size)
    rw [hn] at hsize hsmall hbound ⊢
    rw [Int.toNat_natCast]
    have htake : (memory.take n).length = n :=
      List.length_take_of_le (by omega)
    have hnil : integerWidth [] = sizeofInt32 :=
      if_pos fun _ hx => (List.not_mem_nil hx).elim
    have hstart : Holds ⟨memory.take n, 1, sizeofInt32, 1⟩ []
        (integerWidth []) n := by
      rw [hnil]
      exact ⟨htake, rfl, rfl, rfl, by dsimp only; omega, rfl⟩
    have hrefines : Refines ⟨memory, 1, n - 1, sizeofInt32, 1⟩
        ⟨memory.take n, 1, sizeofInt32, 1⟩ (memory.drop n) := by
      refine ⟨(List.take_append_drop n memory).symm, rfl, ?_, rfl, rfl⟩
      dsimp only
      rw [htake]
      rfl
    have houtside : ∀ header : List UInt8, header.length = n →
        (header ++ memory.drop n).length = memory.length ∧
        (header ++ memory.drop n).drop n = memory.drop n := by
      intro header hlen
      refine ⟨?_, List.drop_left' hlen⟩
      rw [List.length_append, List.length_drop, hlen]
      omega
    have hloop := @encodeIntegers_spec args xs [] _ _ _ n n hrefines hstart
      (Nat.le_refl _)
    rw [List.nil_append] at hloop
    unfold encodeIntegerArray
    rw [if_neg hsmall, Int.toNat_natCast]
    rcases hloop with ⟨header, heq, hlen, hfull⟩ | ⟨b, a, heq, hb, ha⟩
    · rw [heq]
      rw [List.length_nil] at hfull
      exact ⟨_, _, rfl, (houtside header hlen).1, (houtside header hlen).2,
        .inl ⟨rfl, by omega⟩⟩
    · have hbuffer := ha.buffer
      have hroom := ha.room
      have hlength := ha.length
      rw [heq]
      dsimp only [Except.map]
      rw [hb.buffer, hb.memory, hb.intlen]
      by_cases hxs : xs = []
      · subst hxs
        rw [List.length_nil, Nat.zero_mul] at hbuffer
        rw [if_pos hbuffer]
        refine ⟨_, _, rfl, (houtside _ hlength).1, (houtside _ hlength).2,
          .inr ⟨0, rfl, Nat.zero_le _, rfl, rfl, fun rest => rfl⟩⟩
      · have hw := integerWidth_cases xs
        have hpos : 0 < xs.length * integerWidth xs :=
          Nat.mul_pos (List.length_pos_iff.mpr hxs) (by omega)
        have hblock := length_integersBlock hxs
        have hstop : a.buffer = (integersBlock xs).length := by
          rw [hblock, hbuffer]
        have hfits : 0 + [UInt8.ofNat a.intlen].length ≤ a.header.length := by
          rw [List.length_singleton]
          omega
        have hstored := (length_store hfits).trans hlength
        have hload := load_header ha hxs
        rw [if_neg (by omega), store_append_left hfits]
        refine ⟨_, _, rfl, (houtside _ hstored).1, (houtside _ hstored).2,
          .inr ⟨a.buffer, rfl, hroom, ?_, ?_, fun rest => ?_⟩⟩
        · rw [if_neg hxs, ← integerWidth_eq, hbuffer]
        · rw [load_append_left (by rw [hstored]; omega), hstop]
          exact hload
        · rw [load_append_left (by rw [hstored]; omega), hstop, hload]
          exact decodeArray_collect (by omega) rest
  · obtain ⟨-, hbefore, hbehind, -⟩ :=
      moved_spec rfl hnarrow hroom hload hi
    exact ⟨hbefore, hbehind⟩

/-- A large integer behind a small one, and a negative one behind it. -/
theorem encodeIntegerArray_mixed :
    (32 : BitVec 32).toInt ≤ (List.replicate 40 (0 : UInt8)).length ∧
    ∃ memory' result,
      encodeIntegerArray (feed [1, 0x100000000, -1])
        ⟨[], 0, .integer, [], 0, none, 0⟩ (List.replicate 40 0)
        (32 : BitVec 32).toInt () = .ok (memory', result) ∧
      memory'.drop 32 = List.replicate 8 0 ∧
      ∃ stop, result = some (stop, false, ()) ∧
        load memory' 0 stop = integersBlock [1, 0x100000000, -1] := by
  have hsize : (32 : BitVec 32).toInt ≤
      (List.replicate 40 (0 : UInt8)).length := by decide
  obtain ⟨⟨memory', result, heq, -, hdrop, hresult⟩, -⟩ :=
    encodeIntegerArray_spec [1, 0x100000000, -1]
      ⟨[], 0, .integer, [], 0, none, 0⟩ 32 (List.replicate 40 0) hsize
  refine ⟨hsize, memory', result, heq, hdrop, ?_⟩
  rcases hresult with ⟨-, hlt⟩ | ⟨stop, hstop, -, -, hload, -⟩
  · exact absurd hlt (by decide)
  · exact ⟨stop, hstop, hload⟩

end SkynetServer.Sproto.Sized
