import Mathlib.Data.List.GetD
import SkynetServer.Crypt.Des
import SkynetServer.Support.Ciphers

/-!
# Decoding what is encoded with DES

The permutations in front of the rounds and behind them are swaps and rotations,
and undo each other.  The rounds are undone with the pairs of words of the key
in reversed order, and the padding is told from the text as `0x80` stands
between them.
-/

namespace SkynetServer.LuaCrypt

open Ciphers

/-! ## Words and bytes -/

section Words

theorem word_of_bytes (n : BitVec 32) :
    ((n >>> 24).setWidth 8).setWidth 32 <<< 24 |||
      ((n >>> 16).setWidth 8).setWidth 32 <<< 16 |||
      ((n >>> 8).setWidth 8).setWidth 32 <<< 8 |||
      (n.setWidth 8).setWidth 32 = n := by
  refine BitVec.eq_of_getLsbD_eq fun i hi => ?_
  simp only [BitVec.getLsbD_or, BitVec.getLsbD_shiftLeft,
    BitVec.getLsbD_setWidth, BitVec.getLsbD_ushiftRight]
  by_cases h8 : i < 8
  · grind
  · by_cases h16 : i < 16
    · grind
    · by_cases h24 : i < 24
      · grind
      · grind

theorem bytes_of_word (a b c d : BitVec 8) (n : BitVec 32)
    (hn : n = a.setWidth 32 <<< 24 ||| b.setWidth 32 <<< 16 |||
      c.setWidth 32 <<< 8 ||| d.setWidth 32) :
    (n >>> 24).setWidth 8 = a ∧ (n >>> 16).setWidth 8 = b ∧
      (n >>> 8).setWidth 8 = c ∧ n.setWidth 8 = d := by
  have hbit (i : ℕ) : n.getLsbD i = _ := congrArg (BitVec.getLsbD · i) hn
  simp only [BitVec.getLsbD_or, BitVec.getLsbD_shiftLeft,
    BitVec.getLsbD_setWidth] at hbit
  refine ⟨?_, ?_, ?_, ?_⟩
  · refine BitVec.eq_of_getLsbD_eq fun i hi => ?_
    rw [BitVec.getLsbD_setWidth, BitVec.getLsbD_ushiftRight, hbit]
    grind
  · refine BitVec.eq_of_getLsbD_eq fun i hi => ?_
    rw [BitVec.getLsbD_setWidth, BitVec.getLsbD_ushiftRight, hbit]
    grind
  · refine BitVec.eq_of_getLsbD_eq fun i hi => ?_
    rw [BitVec.getLsbD_setWidth, BitVec.getLsbD_ushiftRight, hbit]
    grind
  · refine BitVec.eq_of_getLsbD_eq fun i hi => ?_
    rw [BitVec.getLsbD_setWidth, hbit]
    grind

/-- The two words of a block. -/
def halves (text : List UInt8) : BitVec 32 × BitVec 32 :=
  (GET_UINT32 text 0, GET_UINT32 text 4)

/-- The block of two words. -/
def block (s : BitVec 32 × BitVec 32) : List UInt8 :=
  PUT_UINT32 s.1 ++ PUT_UINT32 s.2

theorem halves_block (s : BitVec 32 × BitVec 32) : halves (block s) = s :=
  Prod.ext (word_of_bytes s.1) (word_of_bytes s.2)

theorem put_get (text : List UInt8) (i : ℕ) :
    PUT_UINT32 (GET_UINT32 text i) =
      [text.getD i 0, text.getD (i + 1) 0, text.getD (i + 2) 0,
        text.getD (i + 3) 0] := by
  obtain ⟨ha, hb, hc, hd⟩ := bytes_of_word _ _ _ _ (GET_UINT32 text i) rfl
  rw [PUT_UINT32, ha, hb, hc, hd]

theorem block_halves
    {text : List UInt8}
    (htext : text.length = 8) : block (halves text) = text := by
  rw [block, halves, put_get, put_get]
  refine List.ext_getElem htext.symm fun i hi _ => ?_
  have hget : ∀ j (hj : j < text.length), text.getD j 0 = text[j] :=
    fun j hj => List.getD_eq_getElem _ _ hj
  match i, hi with
  | 0, _ | 1, _ | 2, _ | 3, _ | 4, _ | 5, _ | 6, _ | 7, _ =>
    exact hget _ (by omega)

end Words

/-! ## The permutations -/

section Permutations

/-- The rotation of `DES_IP`. -/
def rotl (X : BitVec 32) : BitVec 32 :=
  ((X <<< 1) ||| (X >>> 31)) &&& 0xFFFFFFFF

/-- The rotation of `DES_FP`. -/
def rotr (X : BitVec 32) : BitVec 32 :=
  ((X <<< 31) ||| (X >>> 1)) &&& 0xFFFFFFFF

theorem and_ones (X : BitVec 32) : X &&& 0xFFFFFFFF = X := BitVec.and_allOnes

theorem rotr_rotl (X : BitVec 32) : rotr (rotl X) = X := by
  rw [rotr, rotl, and_ones, and_ones]
  refine BitVec.eq_of_getLsbD_eq fun i hi => ?_
  grind

theorem rotl_rotr (X : BitVec 32) : rotl (rotr X) = X := by
  rw [rotr, rotl, and_ones, and_ones]
  refine BitVec.eq_of_getLsbD_eq fun i hi => ?_
  grind

/-- `DES_IP` of a block. -/
def ip (s : BitVec 32 × BitVec 32) : BitVec 32 × BitVec 32 := DES_IP s.1 s.2

/-- `DES_FP` of a block. -/
def fp (s : BitVec 32 × BitVec 32) : BitVec 32 × BitVec 32 := DES_FP s.1 s.2

theorem ip_eq (s : BitVec 32 × BitVec 32) :
    ip s = Prod.map rotl id (swapBits 0 0xAAAAAAAA (Prod.map id rotl
      (swapBits 8 0x00FF00FF (swapBits 2 0x33333333 (swapBits 16 0x0000FFFF
        (swapBits 4 0x0F0F0F0F s)).swap)).swap)) := by
  rw [swapBits, BitVec.ushiftRight_zero, BitVec.shiftLeft_zero]
  rfl

theorem fp_eq (s : BitVec 32 × BitVec 32) :
    fp s = swapBits 4 0x0F0F0F0F (swapBits 16 0x0000FFFF (swapBits 2 0x33333333
      (swapBits 8 0x00FF00FF (Prod.map id rotr (swapBits 0 0xAAAAAAAA
        (Prod.map rotr id s))).swap)).swap) := by
  rw [swapBits.eq_1 0, BitVec.ushiftRight_zero, BitVec.shiftLeft_zero]
  rfl

theorem fp_ip (s : BitVec 32 × BitVec 32) : fp (ip s) = s := by
  have hfst (s : BitVec 32 × BitVec 32) :
        Prod.map rotr id (Prod.map rotl id s) = s :=
    Prod.ext (rotr_rotl _) rfl
  have hsnd (s : BitVec 32 × BitVec 32) :
        Prod.map id rotr (Prod.map id rotl s) = s :=
    Prod.ext rfl (rotr_rotl _)
  rw [ip_eq, fp_eq, hfst, swapBits_swapBits (by decide), hsnd, Prod.swap_swap,
    swapBits_swapBits (by decide), swapBits_swapBits (by decide),
    Prod.swap_swap, swapBits_swapBits (by decide),
    swapBits_swapBits (by decide)]

theorem ip_fp (s : BitVec 32 × BitVec 32) : ip (fp s) = s := by
  have hfst (s : BitVec 32 × BitVec 32) :
        Prod.map rotl id (Prod.map rotr id s) = s :=
    Prod.ext (rotl_rotr _) rfl
  have hsnd (s : BitVec 32 × BitVec 32) :
        Prod.map id rotl (Prod.map id rotr s) = s :=
    Prod.ext rfl (rotl_rotr _)
  rw [ip_eq, fp_eq, swapBits_swapBits (by decide),
    swapBits_swapBits (by decide), Prod.swap_swap,
    swapBits_swapBits (by decide), swapBits_swapBits (by decide),
    Prod.swap_swap, hsnd, swapBits_swapBits (by decide), hfst]

end Permutations

/-! ## The rounds -/

section Rounds

variable {ps : List (BitVec 32 × BitVec 32)} {n : ℕ}

/-- The words of the key for these pairs. -/
def words (ps : List (BitVec 32 × BitVec 32)) : List (BitVec 32) :=
  ps.flatMap fun p => [p.1, p.2]

theorem subkeys_eq_words (is : List ℕ) (X Y : BitVec 32) :
    ∃ ps, ps.length = is.length ∧ subkeys is X Y = words ps := by
  induction is generalizing X Y with
  | nil => exact ⟨[], rfl, rfl⟩
  | cons i is ih =>
      rw [subkeys]
      dsimp only
      split
      · obtain ⟨ps, hlen, hps⟩ := ih (((X <<< 1) ||| (X >>> 27)) &&& 0x0FFFFFFF)
          (((Y <<< 1) ||| (Y >>> 27)) &&& 0x0FFFFFFF)
        exact ⟨(_, _) :: ps, congrArg Nat.succ hlen,
          congrArg (subkey _ _ ++ ·) hps⟩
      · obtain ⟨ps, hlen, hps⟩ := ih (((X <<< 2) ||| (X >>> 26)) &&& 0x0FFFFFFF)
          (((Y <<< 2) ||| (Y >>> 26)) &&& 0x0FFFFFFF)
        exact ⟨(_, _) :: ps, congrArg Nat.succ hlen,
          congrArg (subkey _ _ ++ ·) hps⟩

/-- The key is sixteen pairs of words. -/
theorem des_main_ks_eq_words (key : List UInt8) :
    ∃ ps, ps.length = 16 ∧ des_main_ks key = words ps :=
  subkeys_eq_words (List.range 16) _ _

theorem words_getD (i : ℕ) :
    (words ps).getD (2 * i) 0 = (ps.getD i (0, 0)).1 ∧
      (words ps).getD (2 * i + 1) 0 = (ps.getD i (0, 0)).2 := by
  induction ps generalizing i with
  | nil => exact ⟨rfl, rfl⟩
  | cons p ps ih =>
      cases i with
      | zero => exact ⟨rfl, rfl⟩
      | succ i => exact ih i

/-- The words that `ldesdecode` takes are the pairs in reversed order. -/
theorem words_reverse
    (hps : ps.length = 16) :
    ((List.range 16).flatMap fun i =>
      [(words ps).getD (30 - 2 * i) 0, (words ps).getD (31 - 2 * i) 0]) =
        words ps.reverse := by
  have hrev :
      ps.reverse = (List.range 16).map fun i => ps.getD (15 - i) (0, 0) := by
    refine List.ext_getElem ?_ fun i hi _ => ?_
    · rw [List.length_reverse, List.length_map, List.length_range, hps]
    · rw [List.length_reverse] at hi
      rw [List.getElem_reverse, List.getElem_map, List.getElem_range,
        ← List.getD_eq_getElem _ (0, 0), hps]
  rw [hrev, words.eq_1 (List.map _ _), List.flatMap_map]
  refine List.flatMap_congr fun i hi => ?_
  have hi := List.mem_range.mp hi
  obtain ⟨hfst, hsnd⟩ : _ ∧ (words ps).getD (2 * (15 - i) + 1) 0 = _ :=
    words_getD (15 - i)
  rw [← hfst, ← hsnd, show 2 * (15 - i) = 30 - 2 * i by omega,
    show 30 - 2 * i + 1 = 31 - 2 * i by omega]

/-- A step of `desRounds` is two rounds. -/
theorem desRounds_words (n : ℕ) (hn : ps.length = 2 * n) (X Y : BitVec 32) :
    desRounds (words ps) X Y = rounds (· ^^^ ·) DES_ROUND ps (X, Y) := by
  induction n generalizing ps X Y with
  | zero =>
      rw [List.eq_nil_of_length_eq_zero hn]
      rfl
  | succ n ih =>
      obtain _ | ⟨p, _ | ⟨q, ps⟩⟩ := ps
      · cases hn
      · cases hn
      · have hpairs : ps.length = 2 * n := by simpa [Nat.mul_succ] using hn
        exact ih hpairs _ _

theorem des_crypt_words (hps : ps.length = 16) (text : List UInt8) :
    des_crypt (words ps) text =
      block (fp (rounds (· ^^^ ·) DES_ROUND ps (ip (halves text))).swap) := by
  rw [← desRounds_words 8 hps]
  rfl

/-- A block is decrypted with the pairs in reversed order. -/
theorem des_crypt_reverse
    (hps : ps.length = 16) {text : List UInt8} (htext : text.length = 8) :
    des_crypt (words ps.reverse) (des_crypt (words ps) text) = text := by
  have hcancel (X Y : BitVec 32) : X ^^^ Y ^^^ Y = X := by
    rw [BitVec.xor_assoc, BitVec.xor_self, BitVec.xor_zero]
  rw [des_crypt_words hps, des_crypt_words (ps.length_reverse.trans hps),
    halves_block, ip_fp, rounds_reverse _ hcancel, Prod.swap_swap, fp_ip,
    block_halves htext]

end Rounds

/-! ## Blocks -/

section Blocks

variable {SK : List (BitVec 32)} {ps : List (BitVec 32 × BitVec 32)} {n : ℕ}
  {text rest : List UInt8}

@[simp] theorem length_des_crypt : (des_crypt SK text).length = 8 := rfl

@[simp] theorem length_desBlocks (n : ℕ) (text : List UInt8) :
    (desBlocks SK n text).length = 8 * n := by
  induction n generalizing text with
  | zero => rfl
  | succ n ih =>
      rw [desBlocks, List.length_append, length_des_crypt, ih, Nat.mul_succ,
        Nat.add_comm]

/-- The blocks of the first text are apart from those of the second one. -/
theorem desBlocks_append
    (htext : text.length = 8 * n) (k : ℕ) (rest : List UInt8) :
    desBlocks SK (n + k) (text ++ rest) =
      desBlocks SK n text ++ desBlocks SK k rest := by
  induction n generalizing text with
  | zero =>
      rw [List.eq_nil_of_length_eq_zero htext, Nat.zero_add]
      rfl
  | succ n ih =>
      have hfirst : 8 ≤ text.length := by omega
      have hothers : (text.drop 8).length = 8 * n := by
        rw [List.length_drop]
        omega
      rw [Nat.add_right_comm, desBlocks, desBlocks,
        List.take_append_of_le_length hfirst,
        List.drop_append_of_le_length hfirst, ih hothers, List.append_assoc]

theorem desBlocks_one
    (hrest : rest.length = 8) : desBlocks SK 1 rest = des_crypt SK rest := by
  rw [desBlocks, desBlocks, List.append_nil,
    List.take_of_length_le (Nat.le_of_eq hrest)]

/-- Blocks are decrypted with the pairs in reversed order. -/
theorem desBlocks_reverse
    (hps : ps.length = 16) (htext : text.length = 8 * n) :
    desBlocks (words ps.reverse) n (desBlocks (words ps) n text) = text := by
  induction n generalizing text with
  | zero => exact (List.eq_nil_of_length_eq_zero htext).symm
  | succ n ih =>
      have hfirst : (text.take 8).length = 8 := by
        rw [List.length_take]
        omega
      have hothers : (text.drop 8).length = 8 * n := by
        rw [List.length_drop]
        omega
      rw [desBlocks, desBlocks, List.take_left' length_des_crypt,
        List.drop_left' length_des_crypt, des_crypt_reverse hps hfirst,
        ih hothers, List.take_append_drop]

end Blocks

/-! ## The padding -/

section Padding

variable {text buffer bs : List UInt8} {padding textsz n q : ℕ}

/-- A text with its padding. -/
def pad (text : List UInt8) : List UInt8 :=
  text ++ 0x80 :: List.replicate (7 - text.length % 8) 0

theorem length_pad (text : List UInt8) :
    (pad text).length = 8 * (text.length / 8 + 1) := by
  rw [pad, List.length_append, List.length_cons, List.length_replicate]
  omega

/-- The padding is that of the last block. -/
theorem pad_eq_tail (text : List UInt8) :
    pad text = text.take (8 * (text.length / 8)) ++
      tail (text.drop (8 * (text.length / 8))) := by
  have hrest :
      (text.drop (8 * (text.length / 8))).length = text.length % 8 := by
    rw [List.length_drop]
    omega
  rw [tail, ← List.append_assoc, List.take_append_drop, hrest, pad]

theorem paddingLoop_zeros (k : ℕ) (bs : List UInt8) (padding : ℕ) :
    paddingLoop textsz (List.replicate k 0 ++ bs) padding =
      paddingLoop textsz bs (padding + k) := by
  induction k generalizing padding with
  | zero => rfl
  | succ k ih =>
      rw [List.replicate_succ, List.cons_append, paddingLoop, if_pos rfl, ih,
        Nat.add_right_comm, Nat.add_assoc]

/-- The bytes up to the first one that is not zero. -/
theorem exists_zeros (bs : List UInt8) :
    ∃ k rest, bs = List.replicate k 0 ++ rest ∧
      ∀ b rest', rest = b :: rest' → b ≠ 0 := by
  induction bs with
  | nil => exact ⟨0, [], rfl, fun _ _ h => nomatch h⟩
  | cons b bs ih =>
      by_cases hb : b = 0
      · obtain ⟨k, rest, hbs, hrest⟩ := ih
        exact ⟨k + 1, rest, by rw [hb, hbs, List.replicate_succ]; rfl, hrest⟩
      · refine ⟨0, b :: bs, rfl, fun c rest h => ?_⟩
        rwa [← (List.cons.inj h).1]

/-- The loop counts the zero bytes in front of a byte `0x80`, or all of them. -/
theorem paddingLoop_eq_ok
    (hloop : paddingLoop textsz bs padding = .ok q) :
    ∃ k, q = padding + k ∧
      (bs = List.replicate k 0 ∨
        ∃ rest, bs = List.replicate k 0 ++ 0x80 :: rest) := by
  obtain ⟨k, rest, rfl, hrest⟩ := exists_zeros bs
  rw [paddingLoop_zeros] at hloop
  obtain _ | ⟨b, rest⟩ := rest
  · rw [paddingLoop] at hloop
    split at hloop
    · cases hloop
    · exact ⟨k, (Except.ok.inj hloop).symm, Or.inl (List.append_nil _)⟩
  · rw [paddingLoop, if_neg (hrest b rest rfl)] at hloop
    split at hloop
    next hb =>
      exact ⟨k, (Except.ok.inj hloop).symm, Or.inr ⟨rest, by rw [hb]⟩⟩
    · cases hloop

/-- The loop reads in front of a block of zero bytes only. -/
theorem paddingLoop_eq_undefined :
    paddingLoop textsz bs padding = .error .undefined ↔
      textsz = 8 ∧ bs = List.replicate bs.length 0 := by
  obtain ⟨k, rest, rfl, hrest⟩ := exists_zeros bs
  rw [paddingLoop_zeros]
  obtain _ | ⟨b, rest⟩ := rest
  · rw [paddingLoop, List.append_nil, List.length_replicate]
    simp
  · have hb := hrest b rest rfl
    have hmem : ¬ List.replicate k 0 ++ b :: rest =
        List.replicate (List.replicate k 0 ++ b :: rest).length 0 := by
      intro h
      have : b ∈ List.replicate (List.replicate k 0 ++ b :: rest).length 0 := by
        rw [← h]
        exact List.mem_append_right _ (List.mem_cons_self ..)
      exact hb (List.eq_of_mem_replicate this)
    rw [paddingLoop, if_neg hb]
    split
    · exact iff_of_false (fun h => nomatch h) fun h => hmem h.2
    · exact iff_of_false (fun h => nomatch h) fun h => hmem h.2

/-- What is decrypted without its padding. -/
def unpad (buffer : List UInt8) : Except Error (List UInt8) :=
  (paddingLoop buffer.length (buffer.drop (buffer.length - 8)).reverse 1).bind
    fun padding =>
      if padding > 8 then .error .text
      else .ok (buffer.take (buffer.length - padding))

theorem unpad_pad (text : List UInt8) : unpad (pad text) = .ok text := by
  have hlen := length_pad text
  have htake : (text.take (8 * (text.length / 8))).length =
      (pad text).length - 8 := by
    rw [hlen, List.length_take]
    omega
  have hmod : text.length - 8 * (text.length / 8) = text.length % 8 := by
    omega
  have hlast : ((pad text).drop ((pad text).length - 8)).reverse =
      List.replicate (7 - text.length % 8) 0 ++
        0x80 :: (text.drop (8 * (text.length / 8))).reverse := by
    rw [pad_eq_tail] at htake ⊢
    rw [List.drop_left' htake, tail, List.length_drop, hmod,
      List.reverse_append, List.reverse_cons, List.reverse_replicate,
      List.append_assoc]
    rfl
  rw [unpad, hlast, paddingLoop_zeros]
  change (if _ then _ else _) = _
  rw [if_neg (by omega), pad, List.take_left' ?_]
  rw [List.length_append, List.length_cons, List.length_replicate]
  omega

theorem unpad_eq_ok
    (hlen : buffer.length = 8 * (n + 1))
    (htext : unpad buffer = .ok text) : buffer = pad text := by
  have hsplit := List.take_append_drop (buffer.length - 8) buffer
  have hlast : (buffer.drop (buffer.length - 8)).length = 8 := by
    rw [List.length_drop]
    omega
  have htake : (buffer.take (buffer.length - 8)).length = 8 * n := by
    rw [List.length_take]
    omega
  rw [unpad] at htext
  cases hloop : paddingLoop buffer.length
      (buffer.drop (buffer.length - 8)).reverse 1 with
  | error e =>
      rw [hloop] at htext
      cases htext
  | ok q =>
      rw [hloop] at htext
      change (if _ then _ else _) = _ at htext
      obtain ⟨k, hq, hzeros | ⟨rest, hrest⟩⟩ := paddingLoop_eq_ok hloop
      · have hk := congrArg List.length hzeros
        rw [List.length_reverse, hlast, List.length_replicate] at hk
        rw [if_pos (by omega)] at htext
        cases htext
      · have hk := congrArg List.length hrest
        rw [List.length_reverse, hlast, List.length_append, List.length_cons,
          List.length_replicate] at hk
        rw [if_neg (by omega)] at htext
        have hdrop : buffer.drop (buffer.length - 8) =
            rest.reverse ++ 0x80 :: List.replicate k 0 := by
          rw [← List.reverse_reverse (buffer.drop _), hrest,
            List.reverse_append, List.reverse_cons, List.reverse_replicate,
            List.append_assoc]
          rfl
        have hbuffer : buffer = (buffer.take (buffer.length - 8) ++
            rest.reverse) ++ 0x80 :: List.replicate k 0 := by
          rw [List.append_assoc, ← hdrop, hsplit]
        have hfront : (buffer.take (buffer.length - 8) ++ rest.reverse).length =
            buffer.length - q := by
          rw [List.length_append, htake, List.length_reverse]
          omega
        have htext :
            text = buffer.take (buffer.length - 8) ++ rest.reverse := by
          rw [← Except.ok.inj htext]
          calc
            buffer.take (buffer.length - q) =
                ((buffer.take (buffer.length - 8) ++ rest.reverse) ++
                  0x80 :: List.replicate k 0).take (buffer.length - q) :=
              congrArg (List.take (buffer.length - q)) hbuffer
            _ = buffer.take (buffer.length - 8) ++ rest.reverse :=
              List.take_left' hfront
        have hmod : 7 - text.length % 8 = k := by
          rw [htext, hfront]
          omega
        rw [pad, hmod, htext]
        exact hbuffer

end Padding

/-! ## Texts -/

section Texts

variable {key text c : List UInt8} {ps : List (BitVec 32 × BitVec 32)}

theorem des_key_eq
    (hkey : key.length = 8)
    (hwords : des_main_ks key = words ps) : des_key key = .ok (words ps) := by
  rw [des_key, if_neg (not_not.mpr hkey), hwords]

theorem ldesencode_eq
    (hkey : des_key key = .ok (words ps)) :
    ldesencode key text =
      .ok (desBlocks (words ps) (text.length / 8 + 1) (pad text)) := by
  have hdiv : 8 * (text.length / 8) ≤ text.length := Nat.mul_div_le _ _
  have hfront : (text.take (8 * (text.length / 8))).length =
      8 * (text.length / 8) := List.length_take_of_le hdiv
  have htail : (tail (text.drop (8 * (text.length / 8)))).length = 8 := by
    rw [tail, List.length_append, List.length_cons, List.length_replicate,
      List.length_drop]
    omega
  have hblocks : desBlocks (words ps) (text.length / 8) text =
      desBlocks (words ps) (text.length / 8)
        (text.take (8 * (text.length / 8))) := by
    have happend : desBlocks (words ps) _ _ = _ :=
      desBlocks_append hfront 0 (text.drop (8 * (text.length / 8)))
    rwa [List.take_append_drop, Nat.add_zero,
      desBlocks.eq_1 (words ps) (text.drop _), List.append_nil] at happend
  rw [ldesencode, hkey, pad_eq_tail, desBlocks_append hfront,
    desBlocks_one htail, ← hblocks]
  rfl

theorem ldesdecode_eq
    (hps : ps.length = 16) (hkey : des_key key = .ok (words ps)) :
    ldesdecode key c =
      if c.length % 8 ≠ 0 ∨ c.length = 0 then .error (.length c.length)
      else unpad (desBlocks (words ps.reverse) (c.length / 8) c) := by
  rw [ldesdecode, hkey]
  change (if _ then _ else _) = _
  split
  · rfl
  · have hlen : 8 * (c.length / 8) = c.length := by omega
    rw [words_reverse hps, unpad, length_desBlocks, hlen]

/-- Exactly the texts that are encoded are decoded, with the same key. -/
theorem ldesdecode_eq_ok_iff
    (hkey : key.length = 8) :
    ldesdecode key c = .ok text ↔ ldesencode key text = .ok c := by
  obtain ⟨ps, hps, hwords⟩ := des_main_ks_eq_words key
  have hdes_key := des_key_eq hkey hwords
  rw [ldesdecode_eq hps hdes_key, ldesencode_eq hdes_key]
  constructor
  · intro htext
    split at htext
    · cases htext
    · have hlen : c.length = 8 * (c.length / 8 - 1 + 1) := by omega
      have hbuffer : (desBlocks (words ps.reverse) (c.length / 8) c).length =
          8 * (c.length / 8 - 1 + 1) := by
        rw [length_desBlocks]
        omega
      have hpad := unpad_eq_ok hbuffer htext
      have hn : text.length / 8 + 1 = c.length / 8 := by
        have := congrArg List.length hpad
        rw [length_desBlocks, length_pad] at this
        omega
      have hback := desBlocks_reverse ((ps.length_reverse).trans hps)
        (show c.length = 8 * (c.length / 8) by omega)
      rw [List.reverse_reverse] at hback
      rw [hn, ← hpad, hback]
  · intro hc
    rw [← Except.ok.inj hc, length_desBlocks, if_neg (by omega),
      Nat.mul_div_cancel_left _ (by decide : 0 < 8),
      desBlocks_reverse hps (length_pad text), unpad_pad]

end Texts

/-- What is encoded is decoded with the same key. -/
theorem ldesdecode_ldesencode
    {key : List UInt8} (hkey : key.length = 8) (text : List UInt8) :
    (ldesencode key text).bind (ldesdecode key) = .ok text := by
  obtain ⟨ps, hps, hwords⟩ := des_main_ks_eq_words key
  have hencode : ldesencode key text = _ :=
    ldesencode_eq (des_key_eq hkey hwords)
  rw [hencode]
  exact (ldesdecode_eq_ok_iff hkey).mpr hencode

/-- A text of three blocks, the last one with a byte of it. -/
theorem ldesdecode_ldesencode_of_seventeen :
    (ldesencode [1, 2, 3, 4, 5, 6, 7, 8] (List.replicate 17 0)).bind
      (ldesdecode [1, 2, 3, 4, 5, 6, 7, 8]) = .ok (List.replicate 17 0) :=
  ldesdecode_ldesencode rfl _

end SkynetServer.LuaCrypt
