import SkynetServer.Sproto.HostileBounds
import SkynetServer.Support.Fallible

/-!
# Decoding from memory and from a list

The two models of `sproto_decode` agree: on bytes in which no length of a field
wraps around when 4 is added, a run on pointers has the result of the functions
on lists of bytes.
-/

namespace SkynetServer.Sproto

open LittleEndian Seri Fallible Integers

/-! ## Parts of the memory -/

section Bytes

variable (mem : ℕ → UInt8) (p : ℕ) {n k : ℕ}

@[simp] theorem length_bytesAt (n : ℕ) : (bytesAt mem p n).length = n := by
  rw [bytesAt, List.length_map, List.length_range]

theorem take_bytesAt (h : k ≤ n) :
    (bytesAt mem p n).take k = bytesAt mem p k := by
  rw [bytesAt, ← List.map_take, List.take_range, Nat.min_eq_left h, bytesAt]

theorem drop_bytesAt (n k : ℕ) :
    (bytesAt mem p n).drop k = bytesAt mem (p + k) (n - k) := by
  refine List.ext_getElem (by simp) fun i h h' => ?_
  simp [bytesAt, Nat.add_assoc]

theorem toword_bytesAt (h : 2 ≤ n) :
    toword (bytesAt mem p n) = wordAt mem p := by
  rw [wordAt, toword, toword, take_bytesAt mem p h, take_bytesAt mem p (Nat.le_refl _)]

theorem todword_bytesAt (h : 4 ≤ n) :
    todword (bytesAt mem p n) = dwordAt mem p := by
  rw [dwordAt, todword, todword, take_bytesAt mem p h,
    take_bytesAt mem p (Nat.le_refl _)]

theorem number_take_bytesAt (h : 1 ≤ n) :
    number ((bytesAt mem p n).take 1) = (mem p).toNat := by
  rw [take_bytesAt mem p h]
  simp [bytesAt, number]

theorem integerAt_bytesAt
    (hk : k = sizeofInt32 ∨ k = sizeofInt64) (h : k ≤ n) :
    integerAt k (bytesAt mem p n) = integerIn mem k p := by
  rcases hk with rfl | rfl
  · rw [integerIn, integerAt, integerAt, if_pos rfl, if_pos rfl,
      todword_bytesAt mem p h]
    exact congrArg expand64
      (todword_bytesAt mem p (Nat.le_refl _)).symm
  · have hn : (8 : ℕ) ≤ n := h
    rw [integerIn, integerAt, integerAt, if_neg (by decide),
      if_neg (by decide), drop_bytesAt, drop_bytesAt,
      todword_bytesAt mem p (by omega), todword_bytesAt mem p (by decide),
      todword_bytesAt mem _ (by unfold sizeofInt32; omega),
      todword_bytesAt mem _ (by decide)]

end Bytes

/-! ## Runs and results -/

/-- The length of the data of the field wraps around when 4 is added. -/
def Event.Wraps (e : Event) : Prop :=
  match e.action with
  | .field _ _ sz _ => 2 ^ 32 - sizeofLength ≤ sz
  | _ => False

/-- If no length wraps around, the run has the result. -/
def Run.Matches {α : Type*} (x : Run α) (y : Except Failure α) : Prop :=
  (∀ e ∈ x.events, ¬ e.Wraps) → x.result = y

namespace Run

variable {α β : Type*} {x : Run α} {y : Except Failure α} {f : α → Run β}

theorem matches_ret (a : α) : (ret a).Matches (.ok a) := fun _ => rfl

theorem Matches.andThen
    {g : α → Except Failure β} (hx : x.Matches y)
    (hf : ∀ a, (f a).Matches (g a)) : (x.andThen f).Matches (y.bind g) := by
  intro hwraps
  have hresult := hx fun e he => hwraps e (mem_andThen_left he)
  cases y with
  | error failure =>
      rw [andThen_error hresult]
      rfl
  | ok a =>
      rw [andThen_ok hresult] at hwraps ⊢
      exact hf a fun e he => hwraps e (List.mem_append_right _ he)

theorem Matches.map
    {g : α → β} (hx : x.Matches y) :
    (x.andThen fun a => ret (g a)).Matches (y.map g) := by
  cases y with
  | error failure | ok a => exact hx.andThen fun a => matches_ret (g a)

theorem matches_andThen
    {a : α} {z : Except Failure β} (hresult : x.result = .ok a)
    (hf : (f a).Matches z) : (x.andThen f).Matches z := by
  intro hwraps
  rw [andThen_ok hresult] at hwraps ⊢
  exact hf fun e he => hwraps e (List.mem_append_right _ he)

/-- An event that is logged first. -/
theorem matches_log
    {input : Input} {action : Action} {g : Unit → Run β} {z : Except Failure β}
    (h : ¬ Event.Wraps ⟨input, action⟩ → (g ()).Matches z) :
    ((log input action).andThen g).Matches z := by
  intro hwraps
  refine h (hwraps _ (mem_log_andThen action g)) fun e he => ?_
  exact hwraps e (mem_andThen_right rfl he)

end Run

section Decode

variable {σ : Type*} {mem : ℕ → UInt8}
  {cb : Pointer → Arg → σ → Run (ℤ × σ)}
  {cb' : Arg → σ → Except Failure (ℤ × σ)} {input : Input}

/-- The callbacks have the same results. -/
structure CallbackMatches (mem : ℕ → UInt8)
    (cb : Pointer → Arg → σ → Run (ℤ × σ))
    (cb' : Arg → σ → Except Failure (ℤ × σ)) : Prop where
  scalar : ∀ (args : Arg) ud, args.type = .integer ∨ args.type = .boolean →
    (cb .scalar args ud).Matches (cb' args ud)
  null : ∀ (args : Arg) ud, (cb .null { args with value := [] } ud).Matches
    (cb' { args with value := [] } ud)
  data : ∀ (args : Arg) ud p (length : BitVec 32),
    (cb (.data p length)
      { args with value := bytesAt mem p length.toInt.toNat } ud).Matches
      (cb' { args with value := bytesAt mem p length.toInt.toNat } ud)

variable {args : Arg}

theorem matches_passScalar
    (hcb : CallbackMatches mem cb cb') (args : Arg)
    (htype : args.type = .integer ∨ args.type = .boolean) (v : ℕ) (ud : σ) :
    (passScalar cb args v ud).Matches
      (cb' { args with value := bytes 8 v } ud) :=
  hcb.scalar { args with value := bytes 8 v } ud htype

theorem matches_passData
    (hcb : CallbackMatches mem cb cb') {p sz rest : ℕ} {ud : σ}
    (hsz : sz ≤ rest) (hrest : rest < 2 ^ 31) :
    (passData mem cb input args p (BitVec.ofNat 32 sz) ud).Matches
      (cb' { args with value := (bytesAt mem p rest).take sz } ud) := by
  have hint := toInt_ofNat_of_lt (w := 32) (n := sz) (by omega)
  have hdata := hcb.data args ud p (BitVec.ofNat 32 sz)
  have hlength : ((BitVec.ofNat 32 sz).signExtend 64).toNat = sz := by
    have hmsb : (BitVec.ofNat 32 sz).msb = false := by
      rw [BitVec.msb_eq_false_iff_two_mul_lt, BitVec.toNat_ofNat,
        Nat.mod_eq_of_lt (by omega)]
      omega
    rw [BitVec.signExtend_eq_setWidth_of_msb_false hmsb, BitVec.toNat_setWidth,
      BitVec.toNat_ofNat, Nat.mod_eq_of_lt (a := sz) (by omega),
      Nat.mod_eq_of_lt (by omega)]
  rw [hint, Int.toNat_natCast] at hdata
  rw [take_bytesAt mem p hsz, passData, hlength]
  exact Run.matches_log fun _ => hdata

theorem objectsAt_matches
    (hcb : CallbackMatches mem cb cb') {fuel p sz rest : ℕ}
    (index : ℕ) (ud : σ) (hfuel : sz ≤ fuel) (hsz : sz ≤ rest)
    (hrest : rest < 2 ^ 31) :
    (objectsAt mem cb input args p sz index ud).Matches
      (decodeObjects cb' args fuel (bytesAt mem p rest) sz index ud) := by
  induction fuel generalizing p sz rest index ud with
  | zero =>
      obtain rfl : sz = 0 := by omega
      rw [objectsAt, if_pos rfl]
      exact Run.matches_ret _
  | succ fuel ih =>
      rw [objectsAt]
      split
      · rename_i hzero
        subst hzero
        exact Run.matches_ret _
      rename_i hpos
      obtain ⟨k, rfl⟩ : ∃ k, sz = k + 1 := ⟨sz - 1, by omega⟩
      rw [decodeObjects]
      swap
      · omega
      split
      · exact Run.matches_ret _
      rename_i hlength
      unfold sizeofLength at *
      rw [todword_bytesAt mem p (by omega), drop_bytesAt]
      refine Run.matches_andThen rfl ?_
      dsimp only
      split_ifs with hfits
      · exact Run.matches_ret _
      refine (matches_passData hcb (by omega) (by omega)).andThen fun r => ?_
      split_ifs
      · exact Run.matches_ret _
      · rw [drop_bytesAt]
        exact ih _ _ (by omega) (by omega) (by omega)

theorem numbersAt_matches
    (hcb : CallbackMatches mem cb cb')
    (htype : args.type = .integer ∨ args.type = .boolean) {len : ℕ}
    {number : ℕ → ℕ} {number' : List UInt8 → ℕ}
    (hnumber : ∀ p rest, len ≤ rest →
      number' (bytesAt mem p rest) = number p)
    {n p rest : ℕ} (i : ℕ) (ud : σ) (hn : n * len ≤ rest) :
    (numbersAt cb args len number n p i ud).Matches
      ((decodeNumbers cb' args len number' n (bytesAt mem p rest) i
        ud).map some) := by
  induction n generalizing p rest i ud with
  | zero => exact Run.matches_ret _
  | succ n ih =>
      have hlen : len + n * len ≤ rest := by
        rwa [Nat.add_comm, ← Nat.succ_mul]
      rw [numbersAt, decodeNumbers, hnumber p rest (by omega), drop_bytesAt]
      rw [map_bind]
      refine (matches_passScalar hcb { args with index := i + 1 } htype _
        ud).andThen fun r => ih _ _ ?_
      omega

theorem arrayObjectAt_matches
    (hcb : CallbackMatches mem cb cb') (args : Arg) {p sz rest : ℕ} (ud : σ)
    (hsz : sz ≤ rest) (hrest : rest < 2 ^ 31) :
    (arrayObjectAt mem cb input args p (BitVec.ofNat 32 sz) ud).Matches
      (decodeArrayObject cb' args (bytesAt mem p rest) sz ud) := by
  rw [arrayObjectAt, decodeArrayObject, toInt_ofNat_of_lt (by omega),
    Int.toNat_natCast]
  exact objectsAt_matches hcb 1 ud (Nat.le_refl _) hsz hrest

theorem arrayAt_matches
    (hcb : CallbackMatches mem cb cb') {p rest : ℕ} (ud : σ)
    (hfits : dwordAt mem p + 4 ≤ rest) (hrest : rest < 2 ^ 31) :
    (arrayAt mem cb input args p ud).Matches
      (decodeArray cb' args (bytesAt mem p rest) ud) := by
  rw [arrayAt, decodeArray, todword_bytesAt mem p (by omega)]
  refine Run.matches_andThen (a := dwordAt mem p) rfl ?_
  generalize dwordAt mem p = sz at hfits
  by_cases hzero : sz = 0
  · rw [if_pos hzero]
    dsimp only
    rw [if_pos hzero]
    exact (hcb.null { args with index := -1 } ud).map
  rw [if_neg hzero]
  dsimp only
  rw [if_neg hzero, drop_bytesAt]
  change sz + 4 ≤ rest at hfits
  have hobjects : (arrayObjectAt mem cb input args (p + 4)
      (BitVec.ofNat 32 sz) ud).Matches
      (decodeArrayObject cb' args (bytesAt mem (p + 4) (rest - 4)) sz ud) :=
    arrayObjectAt_matches hcb args ud (by omega) (by omega)
  cases htype : args.type with
  | integer =>
      dsimp only
      rw [number_take_bytesAt mem _ (by unfold sizeofLength; omega),
        drop_bytesAt]
      refine Run.matches_andThen (a := (mem (p + sizeofLength)).toNat) rfl ?_
      generalize (mem (p + sizeofLength)).toNat = len
      by_cases hlen : len = sizeofInt32 ∨ len = sizeofInt64
      · rw [if_pos hlen, if_pos hlen]
        split_ifs with hmod
        · exact Run.matches_ret _
        · refine Run.matches_log fun _ => ?_
          refine numbersAt_matches hcb (.inl htype) ?_ 0 ud ?_
          · exact fun p rest h => integerAt_bytesAt mem p hlen h
          · have hmul := Nat.div_mul_le_self (sz - 1) len
            unfold sizeofLength
            omega
      · rw [if_neg hlen, if_neg hlen]
        exact Run.matches_ret _
  | boolean =>
      dsimp only
      refine Run.matches_log fun _ => ?_
      refine numbersAt_matches hcb (.inr htype) ?_ 0 ud
        (by unfold sizeofLength; omega)
      exact fun p rest h => number_take_bytesAt mem p h
  | string | struct st => exact hobjects

theorem dataAt_matches
    (hcb : CallbackMatches mem cb cb') (args : Arg) {p rest : ℕ} (ud : σ)
    (hfits : dwordAt mem p + 4 ≤ rest) (hrest : rest < 2 ^ 31) :
    (dataAt mem cb input args p ud).Matches
      (decodeData cb' args (bytesAt mem p rest) ud) := by
  rw [dataAt, decodeData, todword_bytesAt mem p (by omega), drop_bytesAt]
  refine Run.matches_andThen (a := dwordAt mem p) rfl ?_
  generalize dwordAt mem p = sz at hfits
  have hsz : sz ≤ rest - sizeofLength := by
    unfold sizeofLength
    omega
  have hpass : ((passData mem cb input args (p + sizeofLength)
        (BitVec.ofNat 32 sz) ud).andThen fun r =>
          if r.1 ≠ 0 then .ret none else .ret (some r.2)).Matches
      ((cb' { args with
        value := (bytesAt mem (p + sizeofLength) (rest - sizeofLength)).take
          sz } ud).map fun r => if r.1 ≠ 0 then none else some r.2) := by
    simp only [← apply_ite]
    exact (matches_passData hcb hsz (by omega)).map
  cases args with
  | mk tagname tagid type value index mainindex extra =>
      cases type with
      | integer =>
          dsimp only
          by_cases hlen : sz = sizeofInt32 ∨ sz = sizeofInt64
          · rw [if_pos hlen, if_pos hlen, integerAt_bytesAt mem _ hlen hsz]
            refine Run.matches_log fun _ => ?_
            exact (matches_passScalar hcb _ (.inl rfl) _ ud).map
          · rw [if_neg hlen, if_neg hlen]
            exact Run.matches_ret _
      | boolean => exact Run.matches_ret _
      | string | struct st => exact hpass

/-- A length that is accepted and does not wrap around fits. -/
theorem fieldAt_matches
    (hcb : CallbackMatches mem cb cb') (f : Field) {value p rest : ℕ} (ud : σ)
    (hskip : value = 0 → (dwordAt mem p + sizeofLength) % 2 ^ 32 ≤ rest)
    (hrest : rest < 2 ^ 31) :
    (fieldAt mem cb input f value p rest ud).Matches
      (decodeField cb' f value (bytesAt mem p rest) ud) := by
  rw [fieldAt, decodeField]
  by_cases hvalue : value = 0
  · rw [if_pos hvalue, if_pos hvalue]
    refine Run.matches_log fun hwraps => ?_
    have hfits : dwordAt mem p + 4 ≤ rest := by
      have hlt := dwordAt_lt mem p
      have hshort : ¬ 2 ^ 32 - sizeofLength ≤ dwordAt mem p := hwraps
      have haccepted := hskip hvalue
      unfold sizeofLength at *
      omega
    split_ifs
    · exact arrayAt_matches hcb ud hfits hrest
    · exact dataAt_matches hcb _ ud hfits hrest
  · rw [if_neg hvalue, if_neg hvalue]
    split_ifs with hkind
    · exact (matches_passScalar hcb f.args hkind.2 _ ud).map
    · exact Run.matches_ret _

theorem skipAt_result {value p rest : ℕ} :
    (skipAt mem input value p rest).result =
      let sz := if value = 0 then
        (todword (bytesAt mem p rest) + sizeofLength) % 2 ^ 32 else 0
      .ok (if value = 0 ∧ (rest < sizeofLength ∨ rest < sz) then none
        else some sz) := by
  unfold skipAt
  by_cases hvalue : value = 0
  · rw [if_pos hvalue]
    by_cases hlength : rest < sizeofLength
    · simp [hvalue, hlength, Run.ret]
    · rw [if_neg hlength, Run.andThen_ok (a := dwordAt mem p) rfl,
        todword_bytesAt mem p (Nat.le_of_not_lt hlength)]
      simp only [hvalue, hlength, if_true, true_and, false_or]
      split_ifs
      · rfl
      · rfl
  · simp [hvalue, Run.ret]

theorem fieldsAt_matches
    (hcb : CallbackMatches mem cb cb') (st : SprotoType)
    {i stream n p rest : ℕ} (tag : ℤ) (ud : σ) (hn : i * sizeofField ≤ n)
    (hrest : rest < 2 ^ 31) :
    (fieldsAt mem cb input st i stream p rest tag ud).Matches
      ((decodeFields cb' st i (bytesAt mem stream n) (bytesAt mem p rest) tag
        ud).map fun r => r.map fun q => (q.1.length, q.2)) := by
  induction i generalizing stream n p rest tag ud with
  | zero =>
      intro _
      change Except.ok (some (rest, ud)) =
        .ok (some ((bytesAt mem p rest).length, ud))
      rw [length_bytesAt]
  | succ i ih =>
      have hmore : i * sizeofField ≤ n - sizeofField := by
        unfold sizeofField at *
        omega
      rw [fieldsAt, decodeFields, toword_bytesAt mem stream (by
        unfold sizeofField at hn; omega), drop_bytesAt]
      refine Run.matches_andThen (a := wordAt mem stream) rfl ?_
      generalize wordAt mem stream = value
      dsimp only
      by_cases hodd : value % 2 = 1
      · rw [if_pos hodd, if_pos hodd]
        exact ih _ ud hmore hrest
      rw [if_neg hodd, if_neg hodd, length_bytesAt]
      refine Run.matches_andThen skipAt_result ?_
      generalize hsz : (if value = 0 then
        (todword (bytesAt mem p rest) + sizeofLength) % 2 ^ 32 else 0) = sz
      by_cases hshort : value = 0 ∧ (rest < sizeofLength ∨ rest < sz)
      · rw [if_pos hshort, if_pos hshort]
        exact Run.matches_ret _
      rw [if_neg hshort, if_neg hshort, drop_bytesAt]
      dsimp only
      cases findtag st (tag + 1) with
      | none => exact ih _ ud hmore (by omega)
      | some f =>
          rw [map_bind]
          refine (fieldAt_matches hcb f ud ?_ hrest).andThen fun r => ?_
          · intro hvalue
            have hlong : ¬ (rest < sizeofLength ∨ rest < sz) :=
              fun h => hshort ⟨hvalue, h⟩
            obtain ⟨hlength, hle⟩ := not_or.mp hlong
            rw [if_pos hvalue,
              todword_bytesAt mem p (Nat.le_of_not_lt hlength)] at hsz
            rw [hsz]
            exact Nat.le_of_not_lt hle
          · cases r with
            | none => exact Run.matches_ret _
            | some ud => exact ih _ ud hmore (by omega)

theorem sprotoDecodeAt_matches
    (hcb : CallbackMatches mem cb cb') (st : SprotoType) (data : ℕ)
    (size : BitVec 32) (ud : σ) :
    (sprotoDecodeAt mem cb st data size ud).Matches
      ((sprotoDecode cb' st (bytesAt mem data size.toInt.toNat) ud).map
        fun r => r.map fun q => ((q.1 : ℤ), q.2)) := by
  rw [sprotoDecodeAt, sprotoDecode, length_bytesAt]
  by_cases hheader : size.toInt < sizeofHeader
  · rw [if_pos hheader, if_pos (by unfold sizeofHeader at *; omega)]
    exact Run.matches_ret _
  unfold sizeofHeader at *
  rw [if_neg hheader, if_neg (by omega)]
  have hsize : size.toInt.toNat = size.toNat := by
    rw [← toNat_of_toInt_nonneg (x := size) (by omega), Int.toNat_natCast]
  have hlt := BitVec.toInt_lt (x := size)
  rw [hsize, toword_bytesAt mem data (by omega), drop_bytesAt]
  refine Run.matches_andThen (a := wordAt mem data) rfl ?_
  generalize wordAt mem data = fn
  dsimp only
  rw [length_bytesAt, drop_bytesAt]
  by_cases hfn : size.toNat - 2 < fn * sizeofField
  · rw [if_pos hfn, if_pos hfn]
    exact Run.matches_ret _
  rw [if_neg hfn, if_neg hfn]
  intro hwraps
  have hfields := @fieldsAt_matches _ mem cb cb' ⟨data, size.toNat⟩ hcb st fn
    (data + 2) (size.toNat - 2) (data + 2 + fn * sizeofField)
    (size.toNat - 2 - fn * sizeofField) (-1) ud (Nat.le_of_not_lt hfn)
    (by omega) fun e he => hwraps e (Run.mem_andThen_left he)
  cases hdecode : decodeFields cb' st fn (bytesAt mem (data + 2)
      (size.toNat - 2)) (bytesAt mem (data + 2 + fn * sizeofField)
        (size.toNat - 2 - fn * sizeofField)) (-1) ud with
  | error failure =>
      rw [hdecode] at hfields
      rw [Run.andThen_error hfields]
      rfl
  | ok r =>
      rw [hdecode] at hfields
      rw [Run.andThen_ok hfields]
      cases r with
      | none => rfl
      | some r =>
          have hle := fieldsAt_rest st hfields
          change Except.ok (some (((size.toNat : ℕ) : ℤ) - r.1.length, r.2)) =
            .ok (some (((size.toNat - r.1.length : ℕ) : ℤ), r.2))
          rw [Int.ofNat_sub (by omega)]

end Decode

/-! ## Structs -/

section Struct

variable (sp : Sproto) (numbers : Numbers) (mem : ℕ → UInt8) (level : ℕ)

/-- `sproto_decode` of the struct that the pointer points to. -/
def structAt (pointer : Pointer) (args : Arg) (st : ℕ) :
    Run (Option (ℤ × DecodeUd)) :=
  match pointer with
  | .data p length =>
    sprotoDecodeAt mem (decodeAt sp numbers mem level) (sp.type st) p length
      ⟨none, [], args.mainindex, .atom .nil⟩
  | _ => .ret none

/-- The callback decodes a struct alone. -/
theorem decodeAt_succ_matches
    {pointer : Pointer} {args : Arg} {self : DecodeUd}
    (hstruct : ∀ st, args.type = .struct st →
      (structAt sp numbers mem level pointer args st).Matches
        ((sprotoDecode (decode sp numbers level) (sp.type st) args.value
          ⟨none, [], args.mainindex, .atom .nil⟩).map
            fun r => r.map fun q => ((q.1 : ℤ), q.2))) :
    (decodeAt sp numbers mem (level + 1) pointer args self).Matches
      (decode sp numbers (level + 1) args self) := by
  rw [decodeAt, decode]
  split_ifs
  · exact Run.matches_ret _
  · intro hwraps
    cases htype : args.type with
    | struct st =>
        have hresult := hstruct st htype fun e he =>
          hwraps e (by rw [htype]; exact he)
        simp only [htype, decodeValue]
        change ((structAt sp numbers mem level pointer args st).result.map
          fun r => r.map fun q => (q.1.toNat, q.2)).bind _ = _
        rw [hresult]
        cases sprotoDecode (decode sp numbers level) (sp.type st) args.value
            ⟨none, [], args.mainindex, .atom .nil⟩ with
        | error failure => rfl
        | ok r =>
            cases r with
            | none | some r => rfl
    | integer | boolean | string =>
        simp only [htype, decodeValue]

end Struct

theorem decodeAt_matches
    (sp : Sproto) (numbers : Numbers) (mem : ℕ → UInt8) (level : ℕ) :
    CallbackMatches mem (decodeAt sp numbers mem level)
      (decode sp numbers level) := by
  induction level with
  | zero =>
      exact ⟨fun _ _ _ _ => rfl, fun _ _ _ => rfl, fun _ _ _ _ _ => rfl⟩
  | succ level ih =>
      refine ⟨fun args ud htype => ?_, fun args ud => ?_,
        fun args ud p length => ?_⟩
      · refine decodeAt_succ_matches sp numbers mem level fun st hst => ?_
        rw [hst] at htype
        simp at htype
      · refine decodeAt_succ_matches sp numbers mem level fun st _ => ?_
        exact Run.matches_ret none
      · refine decodeAt_succ_matches sp numbers mem level fun st _ => ?_
        exact sprotoDecodeAt_matches ih _ _ _ _

/-- Decoding the bytes of the memory. -/
theorem ldecode_bytesAt
    {sp : Sproto} {numbers : Numbers} {mem : ℕ → UInt8} {st : SprotoType}
    {data : ℕ} {size : BitVec 32}
    (hwraps : ∀ e ∈ (ldecodeAt sp numbers mem st data size).events,
      ¬ e.Wraps) :
    ldecode sp numbers st (bytesAt mem data size.toInt.toNat) =
      (ldecodeAt sp numbers mem st data size).result.bind fun
        | none => .error .decodeError
        | some (r, self) => .ok (.table 0 self.result, r.toNat) := by
  have hresult := sprotoDecodeAt_matches
    (decodeAt_matches sp numbers mem encodeDeeplevel) st data size _ hwraps
  rw [ldecode, ldecodeAt, hresult]
  cases sprotoDecode (decode sp numbers encodeDeeplevel) st
      (bytesAt mem data size.toInt.toNat) ⟨none, [], none, .atom .nil⟩ with
  | error failure => rfl
  | ok r =>
      cases r with
      | none | some r => rfl

end SkynetServer.Sproto
