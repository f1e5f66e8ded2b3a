import SkynetServer.Crypt.DesRoundTrip

/-!
# The indices of `ldesdecode`

The loops of `ldesdecode` with the indices that they use of the buffer of
decrypted bytes.  An index is an `int`, but it is compared with a length as an
unsigned number of 64 bits: no index is below zero for the loop over the
padding.
-/

namespace SkynetServer.LuaCrypt

/-! ## The loops -/

/-- The loop over the blocks, from the index `i` on, with `n` blocks left. -/
def decryptLoop (SK : List (BitVec 32)) :
    ℕ → ℕ → List UInt8 → List ℤ × Except Error (List UInt8)
  | 0, _, _ => ([], .ok [])
  | n + 1, i, text =>
    let used := (List.range 8).map fun k => ((i + k : ℕ) : ℤ)
    -- `i += 8` overflows
    if i + 8 ≥ 0x80000000 then (used, .error .undefined)
    else
      let r := decryptLoop SK n (i + 8) (text.drop 8)
      (used ++ r.1, r.2.map (des_crypt SK (text.take 8) ++ ·))

/-- The loop over the padding, from the index `i - 1` on. -/
def paddingScan (buffer : List UInt8) (textsz : ℕ) :
    ℕ → ℕ → List ℤ × Except Error ℕ
  | 0, padding =>
    -- the index -1 as an unsigned number
    if 0xffffffffffffffff ≥ textsz - 8 then ([-1], .error .undefined)
    else ([], .ok padding)
  | i + 1, padding =>
    if i ≥ textsz - 8 then
      if buffer.getD i 0 = 0 then
        let r := paddingScan buffer textsz i (padding + 1)
        ((i : ℤ) :: r.1, r.2)
      else if buffer.getD i 0 = 0x80 then ([(i : ℤ)], .ok padding)
      else ([(i : ℤ)], .error .text)
    else ([], .ok padding)

/-- `ldesdecode` with the indices of `buffer` that it uses. -/
def ldesdecodeIndices (key text : List UInt8) :
    List ℤ × Except Error (List UInt8) :=
  match des_key key with
  | .error e => ([], .error e)
  | .ok ESK =>
    let SK := (List.range 16).flatMap fun i =>
      [ESK.getD (30 - 2 * i) 0, ESK.getD (31 - 2 * i) 0]
    let textsz := text.length
    if textsz % 8 ≠ 0 ∨ textsz = 0 then ([], .error (.length textsz))
    else
      let decrypted := decryptLoop SK (textsz / 8) 0 text
      match decrypted.2 with
      | .error e => (decrypted.1, .error e)
      | .ok buffer =>
        let scanned := paddingScan buffer textsz textsz 1
        (decrypted.1 ++ scanned.1, scanned.2.bind fun padding =>
          if padding > 8 then .error .text
          else .ok (buffer.take (textsz - padding)))

section Loops

variable {SK : List (BitVec 32)} {text buffer : List UInt8}
  {i n textsz padding : ℕ} {k : ℤ}

/-- Without an overflow the loop decrypts the blocks. -/
theorem decryptLoop_result
    (hi : i + 8 * n < 0x80000000) :
    (decryptLoop SK n i text).2 = .ok (desBlocks SK n text) := by
  induction n generalizing i text with
  | zero => rfl
  | succ n ih =>
      rw [decryptLoop, if_neg (by omega), desBlocks]
      dsimp only
      rw [ih (by omega)]
      rfl

theorem decryptLoop_overflow
    (hi : i < 0x80000000) (hover : 0x80000000 ≤ i + 8 * n) :
    (decryptLoop SK n i text).2 = .error .undefined := by
  induction n generalizing i text with
  | zero => omega
  | succ n ih =>
      rw [decryptLoop]
      split
      · rfl
      · dsimp only
        rw [ih (by omega) (by omega)]
        rfl

theorem decryptLoop_indices
    (hk : k ∈ (decryptLoop SK n i text).1) : i ≤ k ∧ k < i + 8 * n := by
  induction n generalizing i text with
  | zero => cases hk
  | succ n ih =>
      have hused : k ∈ (List.range 8).map (fun k => ((i + k : ℕ) : ℤ)) →
          i ≤ k ∧ k < i + 8 * (n + 1 : ℕ) := by
        intro hk
        obtain ⟨j, hj, rfl⟩ := List.mem_map.mp hk
        have hj := List.mem_range.mp hj
        omega
      rw [decryptLoop] at hk
      split at hk
      · exact hused hk
      · rcases List.mem_append.mp hk with hk | hk
        · exact hused hk
        · have := ih hk
          omega

/-- The scan is the loop over the reversed last block. -/
theorem paddingScan_result
    (hbuffer : buffer.length = textsz) (htextsz : 8 ≤ textsz)
    (hlow : textsz - 8 ≤ i) (hhigh : i ≤ textsz) (hint : textsz < 0x80000000) :
    (paddingScan buffer textsz i padding).2 =
      paddingLoop textsz ((buffer.take i).drop (textsz - 8)).reverse
        padding := by
  induction i generalizing padding with
  | zero =>
      rw [paddingScan, if_pos (by omega), List.take_zero, List.drop_nil]
      exact (if_pos (by omega)).symm
  | succ i ih =>
      rw [paddingScan]
      by_cases hi : i ≥ textsz - 8
      · have hlt : i < buffer.length := by omega
        have hlen : textsz - 8 ≤ (buffer.take i).length := by
          rw [List.length_take]
          omega
        rw [if_pos hi, List.getD_eq_getElem _ _ hlt,
          List.take_succ_eq_append_getElem hlt,
          List.drop_append_of_le_length hlen, List.reverse_append,
          List.reverse_singleton, List.singleton_append, paddingLoop]
        by_cases hzero : buffer[i] = 0
        · rw [if_pos hzero, if_pos hzero]
          exact ih hi (by omega)
        · rw [if_neg hzero, if_neg hzero]
          split
          · rfl
          · rfl
      · have hnil : (buffer.take (i + 1)).drop (textsz - 8) = [] := by
          rw [List.drop_eq_nil_iff, List.length_take]
          omega
        rw [if_neg hi, hnil]
        exact (if_neg (by omega)).symm

/-- Only the scan that goes on in front of the buffer uses an index that is
not one of it. -/
theorem paddingScan_indices
    (hk : k ∈ (paddingScan buffer textsz i padding).1) :
    k < i ∧ (0 ≤ k ∨ (paddingScan buffer textsz i padding).2 =
      .error .undefined) := by
  induction i generalizing padding with
  | zero =>
      rw [paddingScan] at hk ⊢
      split at hk
      next h =>
        rw [if_pos h, List.mem_singleton.mp hk]
        exact ⟨by decide, Or.inr rfl⟩
      · cases hk
  | succ i ih =>
      have hlast : k = (i : ℤ) → k < ((i + 1 : ℕ) : ℤ) ∧ 0 ≤ k := by
        rintro rfl
        omega
      rw [paddingScan] at hk ⊢
      split at hk
      next hi =>
        rw [if_pos hi]
        split at hk
        next hzero =>
          rw [if_pos hzero]
          rcases List.mem_cons.mp hk with hk | hk
          · exact ⟨(hlast hk).1, Or.inl (hlast hk).2⟩
          · obtain ⟨hlt, hor⟩ := ih hk
            exact ⟨by omega, hor⟩
        next hzero =>
          have hk : k = (i : ℤ) := by
            split at hk
            · exact List.mem_singleton.mp hk
            · exact List.mem_singleton.mp hk
          exact ⟨(hlast hk).1, Or.inl (hlast hk).2⟩
      · cases hk

end Loops

/-! ## Which texts are decoded -/

section Decoded

variable {key c : List UInt8} {ps : List (BitVec 32 × BitVec 32)}

/-- The call decodes exactly what is encoded and raises an error otherwise, and
uses indices of the buffer only. -/
def DecodesExactly (key c : List UInt8) : Prop :=
  ((∃ text, (ldesdecodeIndices key c).2 = .ok text) ↔
    ∃ text, ldesencode key text = .ok c) ∧
  ((∃ text, (ldesdecodeIndices key c).2 = .ok text) ∨
    ∃ e, (ldesdecodeIndices key c).2 = .error e ∧ e ≠ .undefined) ∧
  ∀ k ∈ (ldesdecodeIndices key c).1, 0 ≤ k ∧ k < (c.length : ℤ)

theorem unpad_eq_undefined
    {buffer : List UInt8} :
    unpad buffer = .error .undefined ↔ buffer = List.replicate 8 0 := by
  have hloop : unpad buffer = .error .undefined ↔
      paddingLoop buffer.length (buffer.drop (buffer.length - 8)).reverse 1 =
        .error .undefined := by
    rw [unpad]
    cases paddingLoop buffer.length
        (buffer.drop (buffer.length - 8)).reverse 1 with
    | error e =>
        exact ⟨fun h => congrArg Except.error (Except.error.inj h),
          fun h => congrArg Except.error (Except.error.inj h)⟩
    | ok q =>
        refine iff_of_false (fun h => ?_) fun h => ?_
        · change (if _ then _ else _) = _ at h
          split at h
          · cases h
          · cases h
        · cases h
  rw [hloop, paddingLoop_eq_undefined]
  constructor
  · rintro ⟨hlen, hzeros⟩
    rw [hlen, List.length_reverse, List.length_drop, hlen, Nat.sub_self,
      List.drop_zero] at hzeros
    exact List.reverse_eq_iff.mp hzeros
  · rintro rfl
    exact ⟨rfl, rfl⟩

/-- The text whose only block is decrypted to zero bytes is the one for which
the padding is looked for in front of the buffer. -/
theorem ldesdecode_eq_undefined
    (hkey : key.length = 8) :
    ldesdecode key c = .error .undefined ↔
      c = des_crypt (des_main_ks key) (List.replicate 8 0) := by
  obtain ⟨ps, hps, hwords⟩ := des_main_ks_eq_words key
  have hzeros : (List.replicate 8 (0 : UInt8)).length = 8 * 1 := rfl
  rw [ldesdecode_eq hps (des_key_eq hkey hwords), hwords]
  constructor
  · intro h
    split at h
    · cases h
    · have hblocks := unpad_eq_undefined.mp h
      have hone : c.length / 8 = 1 := by
        have := congrArg List.length hblocks
        rw [length_desBlocks, List.length_replicate] at this
        omega
      have hback := desBlocks_reverse ((ps.length_reverse).trans hps)
        (show c.length = 8 * 1 by omega)
      rw [hone] at hblocks
      rw [hblocks, List.reverse_reverse, desBlocks_one hzeros] at hback
      exact hback.symm
  · rintro rfl
    have hback :
        desBlocks (words ps.reverse) 1 (desBlocks (words ps) 1 _) = _ :=
      desBlocks_reverse hps hzeros
    rw [desBlocks_one hzeros] at hback
    rw [length_des_crypt, if_neg (by decide), hback, unpad_eq_undefined]

theorem length_of_ldesencode
    {text : List UInt8} (htext : ldesencode key text = .ok c) :
    c.length % 8 = 0 ∧ c.length ≠ 0 := by
  rw [ldesencode] at htext
  cases hkey : des_key key with
  | error e =>
      rw [hkey] at htext
      cases htext
  | ok SK =>
      rw [hkey] at htext
      rw [← Except.ok.inj htext, List.length_append, length_desBlocks,
        length_des_crypt]
      omega

/-- Up to 2^31 bytes the indices make no difference to the result. -/
theorem ldesdecodeIndices_result
    (hc : c.length < 0x80000000) :
    (ldesdecodeIndices key c).2 = ldesdecode key c := by
  rw [ldesdecodeIndices, ldesdecode]
  cases hkey : des_key key with
  | error e => rfl
  | ok ESK =>
      change _ = if _ then _ else _
      dsimp only
      split
      · rfl
      next hlen =>
        have hdiv : 8 * (c.length / 8) = c.length := by omega
        rw [decryptLoop_result (by omega)]
        dsimp only
        rw [paddingScan_result (by rw [length_desBlocks, hdiv]) (by omega)
          (by omega) (Nat.le_refl _) hc,
          List.take_of_length_le (by rw [length_desBlocks, hdiv])]

theorem ldesdecodeIndices_length
    (hkey : key.length = 8) (hlen : c.length % 8 ≠ 0 ∨ c.length = 0) :
    ldesdecodeIndices key c = ([], .error (.length c.length)) := by
  obtain ⟨ps, -, hwords⟩ := des_main_ks_eq_words key
  rw [ldesdecodeIndices, des_key_eq hkey hwords]
  exact if_pos hlen

theorem ldesdecodeIndices_overflow
    (hkey : key.length = 8) (hlen : c.length % 8 = 0)
    (hc : 0x80000000 ≤ c.length) :
    (ldesdecodeIndices key c).2 = .error .undefined := by
  obtain ⟨ps, -, hwords⟩ := des_main_ks_eq_words key
  rw [ldesdecodeIndices, des_key_eq hkey hwords]
  dsimp only
  rw [if_neg (by omega), decryptLoop_overflow (by decide) (by omega)]

/-- A call with a result or an error uses indices of the buffer only. -/
theorem ldesdecodeIndices_inside
    (hdefined : (ldesdecodeIndices key c).2 ≠ .error .undefined) {k : ℤ}
    (hk : k ∈ (ldesdecodeIndices key c).1) : 0 ≤ k ∧ k < (c.length : ℤ) := by
  rw [ldesdecodeIndices] at hdefined hk
  split at hk
  · cases hk
  next ESK hkey =>
    rw [hkey] at hdefined
    dsimp only at hdefined hk
    split at hk
    · cases hk
    next hlen =>
      rw [if_neg hlen] at hdefined
      have hblock : ∀ SK, k ∈ (decryptLoop SK (c.length / 8) 0 c).1 →
          0 ≤ k ∧ k < (c.length : ℤ) := by
        intro SK hk
        have := decryptLoop_indices hk
        omega
      split at hk
      · exact hblock _ hk
      next buffer hbuffer =>
        rw [hbuffer] at hdefined
        rcases List.mem_append.mp hk with hk | hk
        · exact hblock _ hk
        · obtain ⟨hlt, hlow | hundefined⟩ := paddingScan_indices hk
          · exact ⟨hlow, hlt⟩
          · dsimp only at hdefined
            rw [hundefined] at hdefined
            exact absurd rfl hdefined

/-- The calls for texts of less than 2^31 bytes that are not the encryption of
a block of zero bytes are right, and those that stop at the length. -/
theorem decodesExactly_iff
    (hkey : key.length = 8) :
    DecodesExactly key c ↔ c.length % 8 ≠ 0 ∨ c = [] ∨
      c.length < 0x80000000 ∧
        c ≠ des_crypt (des_main_ks key) (List.replicate 8 0) := by
  have hdecoded : DecodesExactly key c →
      (ldesdecodeIndices key c).2 ≠ .error .undefined := by
    rintro ⟨-, ⟨text, htext⟩ | ⟨e, he, hne⟩, -⟩ h
    · rw [h] at htext
      cases htext
    · rw [h] at he
      exact hne (Except.error.inj he).symm
  by_cases hlen : c.length % 8 ≠ 0 ∨ c.length = 0
  · have hresult := ldesdecodeIndices_length hkey hlen
    have hright : c.length % 8 ≠ 0 ∨ c = [] :=
      hlen.imp_right List.eq_nil_of_length_eq_zero
    refine iff_of_true ⟨?_, ?_, ?_⟩ (hright.imp_right Or.inl)
    · rw [hresult]
      refine iff_of_false (fun ⟨_, h⟩ => nomatch h) fun ⟨text, h⟩ => ?_
      obtain ⟨hmod, hne⟩ := length_of_ldesencode h
      exact hlen.elim (fun h => h hmod) hne
    · exact Or.inr ⟨_, congrArg Prod.snd hresult, fun h => nomatch h⟩
    · rw [hresult]
      intro k hk
      cases hk
  · obtain ⟨hmod, hne⟩ := not_or.mp hlen
    have hnil : c ≠ [] := fun h => hne (congrArg List.length h)
    by_cases hc : c.length < 0x80000000
    · have hresult : (ldesdecodeIndices key c).2 = _ :=
        ldesdecodeIndices_result hc
      have hundefined := ldesdecode_eq_undefined (c := c) hkey
      constructor
      · intro h
        refine Or.inr (Or.inr ⟨hc, fun hzeros => hdecoded h ?_⟩)
        rw [hresult, hundefined.mpr hzeros]
      · rintro (h | h | ⟨-, hzeros⟩)
        · exact absurd h hmod
        · exact absurd h hnil
        · have hdefined : (ldesdecodeIndices key c).2 ≠ .error .undefined :=
            fun h => hzeros (hundefined.mp (hresult.symm.trans h))
          refine ⟨?_, ?_, fun k hk => ldesdecodeIndices_inside hdefined hk⟩
          · rw [hresult]
            exact exists_congr fun text => ldesdecode_eq_ok_iff hkey
          · cases h : (ldesdecodeIndices key c).2 with
            | ok text => exact Or.inl ⟨text, rfl⟩
            | error e =>
                exact Or.inr ⟨e, rfl, fun he => hdefined (by rw [h, he])⟩
    · refine iff_of_false (fun h => hdecoded h ?_) ?_
      · exact ldesdecodeIndices_overflow hkey (not_not.mp hmod) (by omega)
      · rintro (h | h | ⟨h, -⟩)
        · exact hmod h
        · exact hnil h
        · exact hc h

/-- The key of the bytes 1 to 8 decrypts this block to zero bytes. -/
theorem not_decodesExactly_of_zeros :
    ¬ DecodesExactly [1, 2, 3, 4, 5, 6, 7, 8]
      [176, 115, 220, 63, 178, 9, 83, 109] := by
  rintro ⟨-, -, hinside⟩
  have hfront : (-1 : ℤ) ∈ (ldesdecodeIndices [1, 2, 3, 4, 5, 6, 7, 8]
      [176, 115, 220, 63, 178, 9, 83, 109]).1 := by
    decide +kernel
  exact absurd (hinside _ hfront).1 (by decide)

theorem decodesExactly_of_ones :
    DecodesExactly [1, 2, 3, 4, 5, 6, 7, 8] (List.replicate 8 1) :=
  (decodesExactly_iff rfl).mpr
    (Or.inr (Or.inr ⟨by decide, by decide +kernel⟩))

end Decoded

end SkynetServer.LuaCrypt
