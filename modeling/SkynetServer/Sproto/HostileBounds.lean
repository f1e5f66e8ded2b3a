import SkynetServer.Sproto.Hostile
import SkynetServer.Support.Integers

/-!
# Which bytes decoding reads

A length that is read from the input is compared with what is left of the
input after 4 was added to it, in 32 bits.  A length below 2^32 - 4 that
passes this test is a length of bytes inside the input.  A larger one always
passes it, and the field decides what becomes of it.
-/

namespace SkynetServer.Sproto

open LittleEndian Seri Integers

/-! ## Accesses -/

/-- The bytes from `p` to `q` are of the input. -/
def Input.Covers (input : Input) (p q : ℕ) : Prop :=
  input.start ≤ p ∧ q ≤ input.start + input.size

/-- The bytes of the action are of the input it is done with. -/
def Event.Inside (e : Event) : Prop :=
  match e.action with
  | .read p n => e.input.Covers p (p + n)
  | .elements p n => e.input.Covers p (p + n)
  | .pass p length => 0 ≤ length ∧ e.input.Covers p (p + length.toNat)
  | .field _ _ _ _ => True

/-- The length `sz` of the data of a field is accepted because it wraps around
when 4 is added, and the field uses it. -/
def Field.Overlong (f : Field) (rest sz len : ℕ) : Prop :=
  2 ^ 32 - sizeofLength ≤ sz ∧
    match f.array, f.type with
    | false, .string => True
    | false, .struct _ => True
    | true, .boolean => True
    | true, .integer =>
      rest = sizeofLength ∨ sz = 2 ^ 32 - 3 ∧ len = sizeofInt32
    | _, _ => False

def Event.Overlong (e : Event) : Prop :=
  match e.action with
  | .field f rest sz len => f.Overlong rest sz len
  | _ => False

/-- The run stays inside exactly when no field is overlong, and then it works
on parts of the input only. -/
structure Run.Exact {α : Type*} (input : Input) (x : Run α) : Prop where
  inside_iff : (∀ e ∈ x.events, e.Inside) ↔ ∀ e ∈ x.events, ¬ e.Overlong
  within : (∀ e ∈ x.events, e.Inside) → ∀ e ∈ x.events,
    input.Covers e.input.start (e.input.start + e.input.size)

theorem Input.Covers.trans
    {input part : Input} {p q : ℕ}
    (hpart : input.Covers part.start (part.start + part.size))
    (h : part.Covers p q) : input.Covers p q :=
  ⟨Nat.le_trans hpart.1 h.1, Nat.le_trans h.2 hpart.2⟩

namespace Run

variable {α β : Type*} {input : Input} {x : Run α} {f : α → Run β}

theorem Exact.mono
    {part : Input} (h : x.Exact part)
    (hpart : input.Covers part.start (part.start + part.size)) :
    x.Exact input :=
  ⟨h.inside_iff, fun hin e he => hpart.trans (h.within hin e he)⟩

theorem exact_of_events_nil (h : x.events = []) : x.Exact input := by
  refine ⟨?_, ?_⟩
  · rw [h]
    exact iff_of_true (List.forall_mem_nil _) (List.forall_mem_nil _)
  · rw [h]
    exact fun _ => List.forall_mem_nil _

theorem exact_ret (a : α) : (ret a).Exact input := exact_of_events_nil rfl

theorem exact_fail (failure : Failure) : (fail failure : Run α).Exact input :=
  exact_of_events_nil rfl

theorem exact_log
    {action : Action} (hin : Event.Inside ⟨input, action⟩)
    (hshort : ¬ Event.Overlong ⟨input, action⟩) :
    (log input action).Exact input := by
  refine ⟨?_, ?_⟩
  · exact iff_of_true (List.forall_mem_singleton.mpr hin)
      (List.forall_mem_singleton.mpr hshort)
  · intro _
    exact List.forall_mem_singleton.mpr ⟨Nat.le_refl _, Nat.le_refl _⟩

theorem andThen_ok {a : α} (h : x.result = .ok a) :
    x.andThen f = ⟨x.events ++ (f a).events, (f a).result⟩ := by
  rw [andThen, h]

theorem andThen_error {failure : Failure} (h : x.result = .error failure) :
    x.andThen f = ⟨x.events, .error failure⟩ := by
  rw [andThen, h]

/-- The parts of a run are checked one after the other. -/
theorem Exact.andThen
    (hx : x.Exact input) (hf : ∀ a, x.result = .ok a → (f a).Exact input) :
    (x.andThen f).Exact input := by
  cases hresult : x.result with
  | error failure =>
      rw [andThen_error hresult]
      exact ⟨hx.inside_iff, hx.within⟩
  | ok a =>
      have ha := hf a hresult
      rw [andThen_ok hresult]
      refine ⟨?_, ?_⟩
      · simp only [List.forall_mem_append]
        exact and_congr hx.inside_iff ha.inside_iff
      · simp only [List.forall_mem_append]
        intro h
        exact ⟨hx.within h.1, ha.within h.2⟩

theorem andThen_eq_ok
    {b : β} (h : (x.andThen f).result = .ok b) :
    ∃ a, x.result = .ok a ∧ (f a).result = .ok b := by
  cases hresult : x.result with
  | error failure =>
      rw [andThen_error hresult] at h
      cases h
  | ok a =>
      rw [andThen_ok hresult] at h
      exact ⟨a, rfl, h⟩

theorem mem_log_andThen (action : Action) (g : Unit → Run β) :
    ⟨input, action⟩ ∈ ((log input action).andThen g).events :=
  List.mem_cons_self

theorem mem_andThen_left {e : Event} (he : e ∈ x.events) :
    e ∈ (x.andThen f).events := by
  cases hresult : x.result with
  | error failure =>
      rw [andThen_error hresult]
      exact he
  | ok a =>
      rw [andThen_ok hresult]
      exact List.mem_append_left _ he

theorem mem_andThen_right
    {e : Event} {a : α} (hresult : x.result = .ok a)
    (he : e ∈ (f a).events) : e ∈ (x.andThen f).events := by
  rw [andThen_ok hresult]
  exact List.mem_append_right _ he

/-- A run with an overlong field that leaves the input. -/
theorem exact_of_outside
    {e e' : Event} (he : e ∈ x.events) (hover : e.Overlong)
    (he' : e' ∈ x.events) (hout : ¬ e'.Inside) : x.Exact input := by
  have hnot : ¬ ∀ e ∈ x.events, e.Inside := fun h => hout (h e' he')
  exact ⟨iff_of_false hnot fun h => h e he hover, fun h => absurd h hnot⟩

end Run

/-! ## The loops -/

section Decode

variable {σ : Type*} {mem : ℕ → UInt8} {cb : Pointer → Arg → σ → Run (ℤ × σ)}
  {input : Input}

/-- A callback that decodes a struct inside the bytes it is given. -/
structure CallbackExact (cb : Pointer → Arg → σ → Run (ℤ × σ)) : Prop where
  scalar : ∀ input args ud, (cb .scalar args ud).Exact input
  null : ∀ input args ud, (cb .null args ud).Exact input
  data : ∀ (input : Input) args ud p length,
    0 ≤ BitVec.toInt length →
      input.Covers p (p + (BitVec.toInt length).toNat) →
        (cb (.data p length) args ud).Exact input

theorem exact_read
    {p n : ℕ} (h : input.Covers p (p + n)) :
    (Run.log input (.read p n)).Exact input :=
  Run.exact_log h id

theorem exact_readDword {p : ℕ} (h : input.Covers p (p + 4)) :
    (readDword mem input p).Exact input :=
  (exact_read h).andThen fun _ _ => Run.exact_ret _

theorem exact_passData
    (hcb : CallbackExact cb) {args : Arg} {p : ℕ} {length : BitVec 32}
    {ud : σ} (hlen : 0 ≤ length.toInt)
    (h : input.Covers p (p + length.toInt.toNat)) :
    (passData mem cb input args p length ud).Exact input :=
  Run.Exact.andThen (Run.exact_log ⟨hlen, h⟩ id)
    fun _ _ => hcb.data input _ _ _ _ hlen h

theorem objectsAt_exact
    (hcb : CallbackExact cb) (args : Arg) {stream sz : ℕ} (index : ℕ) (ud : σ)
    (hsz : sz < 2 ^ 31) (h : input.Covers stream (stream + sz)) :
    (objectsAt mem cb input args stream sz index ud).Exact input := by
  induction sz using Nat.strongRecOn generalizing stream index ud with
  | ind sz ih =>
      rw [objectsAt]
      split
      · exact Run.exact_ret _
      · split
        · exact Run.exact_ret _
        · rename_i hpos hlength
          have hlen : 4 ≤ sz := Nat.le_of_not_lt hlength
          obtain ⟨hstart, hend⟩ := h
          refine (exact_readDword ⟨hstart, by omega⟩).andThen fun hsz' _ => ?_
          dsimp only
          split
          · exact Run.exact_ret _
          · rename_i hfits
            unfold sizeofLength at hfits ⊢
            have hint := toInt_ofNat_of_lt (w := 32) (n := hsz') (by omega)
            refine (exact_passData hcb (by omega) ⟨by omega, ?_⟩).andThen
              fun r _ => ?_
            · rw [hint, Int.toNat_natCast]
              omega
            · split
              · exact Run.exact_ret _
              · exact ih _ (by omega) _ _ (by omega)
                  ⟨by omega, by omega⟩

theorem numbersAt_exact
    (hcb : CallbackExact cb) (args : Arg) (len : ℕ) (number : ℕ → ℕ)
    (n stream i : ℕ) (ud : σ) :
    (numbersAt cb args len number n stream i ud).Exact input := by
  induction n generalizing stream i ud with
  | zero => exact Run.exact_ret _
  | succ n ih =>
      exact (hcb.scalar input _ _).andThen fun r _ => ih _ _ _

/-- What is known about the data of a field when its length was accepted. -/
structure Accepted (input : Input) (mem : ℕ → UInt8) (p rest : ℕ) : Prop where
  start : input.start ≤ p
  remaining : p + rest = input.start + input.size
  size : input.size < 2 ^ 31
  length : sizeofLength ≤ rest
  skip : (dwordAt mem p + sizeofLength) % 2 ^ 32 ≤ rest

theorem dwordAt_lt (mem : ℕ → UInt8) (p : ℕ) : dwordAt mem p < 2 ^ 32 := by
  have h := number_lt ((bytesAt mem p 4).take 4)
  have hlen : ((bytesAt mem p 4).take 4).length = 4 := by
    simp [bytesAt]
  rw [hlen] at h
  exact h

/-- A length that does not wrap around is a length of bytes of the input. -/
theorem Accepted.fits
    {p rest : ℕ} (h : Accepted input mem p rest)
    (hshort : dwordAt mem p < 2 ^ 32 - sizeofLength) :
    dwordAt mem p + sizeofLength ≤ rest := by
  have hskip := h.skip
  unfold sizeofLength at *
  omega

/-! ## Fields -/

section Field

variable {f : Field} {p rest : ℕ}

/-- The byte behind the length. -/
def lenAt (mem : ℕ → UInt8) (p : ℕ) : ℕ := (mem (p + sizeofLength)).toNat

theorem Accepted.covers_length (h : Accepted input mem p rest) :
    input.Covers p (p + 4) := by
  have hlen := h.length
  have hrest := h.remaining
  unfold sizeofLength at hlen
  exact ⟨h.start, by omega⟩

/-- No length of an array of integers that wraps around has elements of eight
bytes, and one has elements of four. -/
theorem mod_len_of_wraps
    {sz len : ℕ} (hsz : sz < 2 ^ 32) (hwrap : 2 ^ 32 - sizeofLength ≤ sz)
    (hlen : len = sizeofInt32 ∨ len = sizeofInt64)
    (hmod : (sz - 1) % len = 0) : sz = 2 ^ 32 - 3 ∧ len = sizeofInt32 := by
  unfold sizeofLength at hwrap
  rcases hlen with rfl | rfl
  · unfold sizeofInt32 at *
    omega
  · unfold sizeofInt64 at *
    omega

theorem arrayAt_exact
    (hcb : CallbackExact cb) (h : Accepted input mem p rest)
    (harray : f.array = true)
    (hnot : ¬ f.Overlong rest (dwordAt mem p) (lenAt mem p)) (ud : σ) :
    (arrayAt mem cb input f.args p ud).Exact input := by
  have hlt := dwordAt_lt mem p
  have hstart := h.start
  have hrest := h.remaining
  have hsize := h.size
  have hlength := h.length
  rw [arrayAt]
  refine (exact_readDword h.covers_length).andThen fun sz hresult => ?_
  obtain rfl : dwordAt mem p = sz := Except.ok.inj hresult
  by_cases hzero : dwordAt mem p = 0
  · rw [if_pos hzero]
    exact (hcb.null input _ _).andThen fun _ _ => Run.exact_ret _
  · rw [if_neg hzero]
    by_cases hshort : dwordAt mem p < 2 ^ 32 - sizeofLength
    · have hfits := h.fits hshort
      dsimp only
      cases htype : f.type with
      | integer =>
          simp only [Field.args, htype]
          refine Run.Exact.andThen (Run.Exact.andThen
            (exact_read ⟨by omega, by omega⟩) fun _ _ => Run.exact_ret _)
            fun len _ => ?_
          split
          · split
            · exact Run.exact_ret _
            · refine Run.Exact.andThen (Run.exact_log
                ⟨?_, ?_⟩ id) fun _ _ => numbersAt_exact hcb _ _ _ _ _ _ _
              · change input.start ≤ p + sizeofLength + 1
                omega
              · change p + sizeofLength + 1 + (dwordAt mem p - 1) ≤
                  input.start + input.size
                omega
          · exact Run.exact_ret _
      | boolean =>
          simp only [Field.args, htype]
          refine Run.Exact.andThen (Run.exact_log ⟨?_, ?_⟩ id)
            fun _ _ => numbersAt_exact hcb _ _ _ _ _ _ _
          · change input.start ≤ p + sizeofLength
            omega
          · change p + sizeofLength + dwordAt mem p ≤
              input.start + input.size
            omega
      | string | struct st =>
          simp only [Field.args, htype]
          unfold sizeofLength at *
          rw [arrayObjectAt, toInt_ofNat_of_lt (by omega), Int.toNat_natCast]
          exact objectsAt_exact hcb _ _ _ (by omega) ⟨by omega, by omega⟩
    · have hwrap := Nat.le_of_not_lt hshort
      dsimp only
      cases htype : f.type with
      | integer =>
          simp only [Field.args, htype]
          have hmore : rest ≠ sizeofLength ∧
              ¬ (dwordAt mem p = 2 ^ 32 - 3 ∧ lenAt mem p = sizeofInt32) := by
            simpa only [Field.Overlong, harray, htype, hwrap, true_and,
              not_or] using hnot
          refine Run.Exact.andThen (Run.Exact.andThen
            (exact_read ⟨by omega, by omega⟩) fun _ _ => Run.exact_ret _)
            fun len hlen => ?_
          obtain rfl : lenAt mem p = len := Except.ok.inj hlen
          split
          · rename_i hwidth
            split
            · exact Run.exact_ret _
            · rename_i hmod
              exact absurd (mod_len_of_wraps hlt hwrap hwidth
                (not_not.mp hmod)) hmore.2
          · exact Run.exact_ret _
      | boolean =>
          exact absurd ⟨hwrap, by simp only [harray, htype]⟩ hnot
      | string | struct st =>
          simp only [Field.args, htype]
          have hneg : (BitVec.ofNat 32 (dwordAt mem p)).toInt.toNat = 0 := by
            have hn : (BitVec.ofNat 32 (dwordAt mem p)).toNat =
                dwordAt mem p := by
              rw [BitVec.toNat_ofNat, Nat.mod_eq_of_lt hlt]
            unfold sizeofLength at hwrap
            rw [BitVec.toInt_eq_toNat_cond, hn, if_neg (by omega)]
            omega
          rw [arrayObjectAt, hneg, objectsAt, if_pos rfl]
          exact Run.exact_ret _

theorem dataAt_exact
    (hcb : CallbackExact cb) (h : Accepted input mem p rest)
    (harray : f.array = false)
    (hnot : ¬ f.Overlong rest (dwordAt mem p) (lenAt mem p)) (ud : σ) :
    (dataAt mem cb input f.args p ud).Exact input := by
  have hstart := h.start
  have hrest := h.remaining
  have hsize := h.size
  rw [dataAt]
  refine (exact_readDword h.covers_length).andThen fun sz hresult => ?_
  obtain rfl : dwordAt mem p = sz := Except.ok.inj hresult
  dsimp only
  cases htype : f.type with
  | integer =>
      simp only [Field.args, htype]
      split
      · rename_i hwidth
        have hfits := h.fits (by
          unfold sizeofInt32 sizeofInt64 at hwidth
          unfold sizeofLength
          omega)
        refine Run.Exact.andThen (exact_read ⟨by omega, by omega⟩)
          fun _ _ => ?_
        exact (hcb.scalar input _ _).andThen fun _ _ => Run.exact_ret _
      · exact Run.exact_ret _
  | boolean =>
      simp only [Field.args, htype]
      exact Run.exact_ret _
  | string | struct st =>
      simp only [Field.args, htype]
      have hshort : dwordAt mem p < 2 ^ 32 - sizeofLength := by
        by_contra hwrap
        exact hnot ⟨Nat.le_of_not_lt hwrap, by simp only [harray, htype]⟩
      have hfits := h.fits hshort
      have hint := toInt_ofNat_of_lt (w := 32) (n := dwordAt mem p) (by omega)
      refine (exact_passData hcb (by omega) ⟨by omega, ?_⟩).andThen
        fun r _ => ?_
      · rw [hint, Int.toNat_natCast]
        omega
      · split
        · exact Run.exact_ret _
        · exact Run.exact_ret _

/-- A string or a struct of a negative length is passed. -/
theorem dataAt_outside
    (hlt : dwordAt mem p < 2 ^ 32) (harray : f.array = false)
    (hover : f.Overlong rest (dwordAt mem p) (lenAt mem p)) (ud : σ) :
    ∃ e ∈ (dataAt mem cb input f.args p ud).events, ¬ e.Inside := by
  obtain ⟨hwrap, hkind⟩ := hover
  unfold sizeofLength at hwrap
  have hneg : (BitVec.ofNat 32 (dwordAt mem p)).toInt < 0 := by
    have hn : (BitVec.ofNat 32 (dwordAt mem p)).toNat = dwordAt mem p := by
      rw [BitVec.toNat_ofNat, Nat.mod_eq_of_lt hlt]
    rw [BitVec.toInt_eq_toNat_cond, hn, if_neg (by omega)]
    omega
  refine ⟨⟨input, .pass (p + sizeofLength)
    (BitVec.ofNat 32 (dwordAt mem p)).toInt⟩, ?_, ?_⟩
  · apply Run.mem_andThen_right (a := dwordAt mem p) rfl
    cases htype : f.type with
    | integer | boolean =>
        simp only [harray, htype] at hkind
    | string | struct st =>
        simp only [Field.args, htype]
        exact Run.mem_andThen_left (Run.mem_log_andThen _ _)
  · rintro ⟨hnonneg, -⟩
    exact absurd hnonneg (Int.not_le.mpr hneg)

/-- The elements of an array reach behind the input. -/
theorem arrayAt_outside
    (h : Accepted input mem p rest) (harray : f.array = true)
    (hover : f.Overlong rest (dwordAt mem p) (lenAt mem p)) (ud : σ) :
    ∃ e ∈ (arrayAt mem cb input f.args p ud).events, ¬ e.Inside := by
  have hstart := h.start
  have hrest := h.remaining
  have hsize := h.size
  obtain ⟨hwrap, hkind⟩ := hover
  have hzero : dwordAt mem p ≠ 0 := by
    unfold sizeofLength at hwrap
    omega
  cases htype : f.type with
  | string | struct st =>
      simp only [harray, htype] at hkind
  | boolean =>
      refine ⟨⟨input, .elements (p + sizeofLength) (dwordAt mem p)⟩, ?_, ?_⟩
      · apply Run.mem_andThen_right (a := dwordAt mem p) rfl
        rw [if_neg hzero]
        simp only [Field.args, htype]
        exact Run.mem_log_andThen _ _
      · rintro ⟨-, hend⟩
        change p + sizeofLength + dwordAt mem p ≤
          input.start + input.size at hend
        unfold sizeofLength at *
        omega
  | integer =>
      simp only [harray, htype] at hkind
      rcases hkind with hlast | ⟨hsz, hlen⟩
      · refine ⟨⟨input, .read (p + sizeofLength) 1⟩, ?_, ?_⟩
        · apply Run.mem_andThen_right (a := dwordAt mem p) rfl
          rw [if_neg hzero]
          simp only [Field.args, htype]
          exact Run.mem_andThen_left (Run.mem_log_andThen _ _)
        · rintro ⟨-, hend⟩
          change p + sizeofLength + 1 ≤ input.start + input.size at hend
          omega
      · refine ⟨⟨input, .elements (p + sizeofLength + 1)
          (dwordAt mem p - 1)⟩, ?_, ?_⟩
        · apply Run.mem_andThen_right (a := dwordAt mem p) rfl
          rw [if_neg hzero]
          simp only [Field.args, htype]
          apply Run.mem_andThen_right (a := lenAt mem p) rfl
          rw [hlen, if_pos (.inl rfl), if_neg (by rw [hsz]; decide)]
          exact Run.mem_log_andThen _ _
        · rintro ⟨-, hend⟩
          change p + sizeofLength + 1 + (dwordAt mem p - 1) ≤
            input.start + input.size at hend
          unfold sizeofLength at *
          omega

theorem fieldAt_exact
    (hcb : CallbackExact cb) {value : ℕ}
    (h : value = 0 → Accepted input mem p rest) (ud : σ) :
    (fieldAt mem cb input f value p rest ud).Exact input := by
  by_cases hvalue : value = 0
  · have hacc := h hvalue
    rw [fieldAt, if_pos hvalue]
    by_cases hover : f.Overlong rest (dwordAt mem p) (lenAt mem p)
    · have hout : ∃ e ∈ (if f.array = true
          then arrayAt mem cb input f.args p ud
          else dataAt mem cb input f.args p ud).events, ¬ e.Inside := by
        cases harray : f.array with
        | true => exact arrayAt_outside hacc harray hover ud
        | false => exact dataAt_outside (dwordAt_lt mem p) harray hover ud
      obtain ⟨e, he, hnot⟩ := hout
      exact Run.exact_of_outside (Run.mem_log_andThen _ _) hover
        (Run.mem_andThen_right rfl he) hnot
    · refine Run.Exact.andThen (Run.exact_log trivial hover) fun _ _ => ?_
      cases harray : f.array with
      | true => exact arrayAt_exact hcb hacc harray hover ud
      | false => exact dataAt_exact hcb hacc harray hover ud
  · rw [fieldAt, if_neg hvalue]
    split
    · exact (hcb.scalar input _ _).andThen fun _ _ => Run.exact_ret _
    · exact Run.exact_ret _

end Field

/-! ## Structs -/

/-- The length of the data is accepted if the data is not too short. -/
theorem skipAt_exact
    {value p rest : ℕ} (hstart : input.start ≤ p)
    (hrest : p + rest = input.start + input.size) :
    (skipAt mem input value p rest).Exact input := by
  unfold skipAt
  split
  · split
    · exact Run.exact_ret _
    · rename_i hlength
      unfold sizeofLength at hlength
      refine (exact_readDword ⟨hstart, by omega⟩).andThen fun sz _ => ?_
      dsimp only
      split
      · exact Run.exact_ret _
      · exact Run.exact_ret _
  · exact Run.exact_ret _

theorem skipAt_spec
    {value p rest skip : ℕ} (hstart : input.start ≤ p)
    (hrest : p + rest = input.start + input.size) (hsize : input.size < 2 ^ 31)
    (h : (skipAt mem input value p rest).result = .ok (some skip)) :
    skip ≤ rest ∧ (value = 0 → Accepted input mem p rest) := by
  unfold skipAt at h
  split at h
  · rename_i hvalue
    split at h
    · cases h
    · rename_i hlength
      rw [Run.andThen_ok (a := dwordAt mem p) rfl] at h
      dsimp only at h
      split at h
      · cases h
      · rename_i hskip
        cases h
        have hle := Nat.le_of_not_lt hskip
        exact ⟨hle, fun _ =>
          ⟨hstart, hrest, hsize, Nat.le_of_not_lt hlength, hle⟩⟩
  · rename_i hvalue
    cases h
    exact ⟨Nat.zero_le _, fun h => absurd h hvalue⟩

theorem fieldsAt_exact
    (hcb : CallbackExact cb) (st : SprotoType) {i stream p rest : ℕ}
    (tag : ℤ) (ud : σ) (hsize : input.size < 2 ^ 31)
    (hrecords : input.Covers stream (stream + i * sizeofField))
    (hstart : input.start ≤ p) (hrest : p + rest = input.start + input.size) :
    (fieldsAt mem cb input st i stream p rest tag ud).Exact input := by
  induction i generalizing stream p rest tag ud with
  | zero => exact Run.exact_ret _
  | succ i ih =>
      obtain ⟨hfirst, hlast⟩ := hrecords
      have hnext : input.Covers (stream + sizeofField)
          (stream + sizeofField + i * sizeofField) := by
        unfold sizeofField at *
        exact ⟨by omega, by omega⟩
      rw [fieldsAt]
      refine Run.Exact.andThen (Run.Exact.andThen (exact_read ⟨hfirst, ?_⟩)
        fun _ _ => Run.exact_ret _) fun value _ => ?_
      · unfold sizeofField at hlast
        omega
      · dsimp only
        split
        · exact ih _ _ hnext hstart hrest
        · refine (skipAt_exact hstart hrest).andThen fun r hr => ?_
          cases r with
          | none => exact Run.exact_ret _
          | some skip =>
              obtain ⟨hskip, hacc⟩ := skipAt_spec hstart hrest hsize hr
              have hmove : p + skip + (rest - skip) =
                  input.start + input.size := by omega
              dsimp only
              split
              · exact ih _ _ hnext (by omega) hmove
              · refine (fieldAt_exact hcb hacc ud).andThen fun r _ => ?_
                cases r with
                | none => exact Run.exact_ret _
                | some ud => exact ih _ _ hnext (by omega) hmove

theorem sprotoDecodeAt_exact
    (hcb : CallbackExact cb) (st : SprotoType) (data : ℕ)
    (size : BitVec 32) (ud : σ) :
    (sprotoDecodeAt mem cb st data size ud).Exact
      ⟨data, size.toInt.toNat⟩ := by
  unfold sprotoDecodeAt
  split
  · exact Run.exact_ret _
  · rename_i hheader
    unfold sizeofHeader at *
    have hnonneg : 0 ≤ size.toInt := by omega
    have hsize : size.toInt.toNat = size.toNat := by
      rw [← toNat_of_toInt_nonneg hnonneg, Int.toNat_natCast]
    have hlt : size.toNat < 2 ^ 31 := by
      have hmax := BitVec.toInt_lt (x := size)
      omega
    rw [hsize]
    refine Run.Exact.andThen (Run.Exact.andThen
      (exact_read ⟨Nat.le_refl _, ?_⟩) fun _ _ => Run.exact_ret _)
      fun fn _ => ?_
    · change data + 2 ≤ data + size.toNat
      omega
    · dsimp only
      split
      · exact Run.exact_ret _
      · rename_i hfn
        unfold sizeofField at hfn ⊢
        refine (fieldsAt_exact hcb st _ _ hlt ⟨?_, ?_⟩ ?_ ?_).andThen
          fun r _ => ?_
        · exact Nat.le_add_right _ _
        · change data + 2 + fn * 2 ≤ data + size.toNat
          omega
        · change data ≤ _
          omega
        · change data + 2 + fn * 2 + (size.toNat - 2 - fn * 2) =
            data + size.toNat
          omega
        · cases r with
          | none | some r => exact Run.exact_ret _

/-- The loop consumes data. -/
theorem fieldsAt_rest
    (st : SprotoType) {i stream p rest left : ℕ} {tag : ℤ} {ud ud' : σ}
    (h : (fieldsAt mem cb input st i stream p rest tag ud).result =
      .ok (some (left, ud'))) : left ≤ rest := by
  induction i generalizing stream p rest tag ud with
  | zero =>
      cases h
      exact Nat.le_refl _
  | succ i ih =>
      rw [fieldsAt] at h
      obtain ⟨value, -, h⟩ := Run.andThen_eq_ok h
      dsimp only at h
      split at h
      · exact ih h
      · obtain ⟨r, -, h⟩ := Run.andThen_eq_ok h
        cases r with
        | none => cases h
        | some skip =>
            dsimp only at h
            split at h
            · exact Nat.le_trans (ih h) (Nat.sub_le _ _)
            · obtain ⟨r, -, h⟩ := Run.andThen_eq_ok h
              cases r with
              | none => cases h
              | some ud => exact Nat.le_trans (ih h) (Nat.sub_le _ _)

theorem sprotoDecodeAt_le
    (st : SprotoType) {data : ℕ} {size : BitVec 32} {ud ud' : σ} {r : ℤ}
    (h : (sprotoDecodeAt mem cb st data size ud).result =
      .ok (some (r, ud'))) : 0 ≤ r ∧ r ≤ size.toInt := by
  unfold sprotoDecodeAt at h
  split at h
  · cases h
  · rename_i hheader
    unfold sizeofHeader at *
    have hsize := toNat_of_toInt_nonneg (x := size) (by omega)
    obtain ⟨fn, -, h⟩ := Run.andThen_eq_ok h
    dsimp only at h
    split at h
    · cases h
    · obtain ⟨r', hfields, h⟩ := Run.andThen_eq_ok h
      cases r' with
      | none => cases h
      | some r' =>
          have hle := fieldsAt_rest st hfields
          cases h
          omega

end Decode

/-- The callback works on the bytes it is given. -/
theorem decodeAt_exact
    (sp : Sproto) (numbers : Numbers) (mem : ℕ → UInt8) (level : ℕ) :
    CallbackExact (decodeAt sp numbers mem level) := by
  induction level with
  | zero =>
      exact ⟨fun _ _ _ => Run.exact_fail _, fun _ _ _ => Run.exact_fail _,
        fun _ _ _ _ _ _ _ => Run.exact_fail _⟩
  | succ level ih =>
      refine ⟨?_, ?_, ?_⟩
      · intro input args ud
        apply Run.exact_of_events_nil
        rw [decodeAt]
        split
        · rfl
        · dsimp only
          split
          · rfl
          · rfl
      · intro input args ud
        apply Run.exact_of_events_nil
        rw [decodeAt]
        split
        · rfl
        · dsimp only
          split
          · rfl
          · rfl
      · intro input args ud p length _ hcovers
        rw [decodeAt]
        split
        · exact Run.exact_ret _
        · dsimp only
          split
          · rename_i st _
            have hsub : (sprotoDecodeAt mem (decodeAt sp numbers mem level)
                (sp.type st) p length
                ⟨none, [], args.mainindex, .atom .nil⟩).Exact input :=
              (sprotoDecodeAt_exact ih _ p length _).mono hcovers
            exact ⟨hsub.inside_iff, hsub.within⟩
          · exact Run.exact_of_events_nil rfl

/-- Decoding returns -1 or at most the size, and whatever it reads or passes
to the callback, in nested structs too, is inside of its input and of the
whole input, if and only if no field is overlong. -/
theorem decode_stays_inside_iff
    (sp : Sproto) (numbers : Numbers) (mem : ℕ → UInt8) (st : SprotoType)
    (data : ℕ) (size : BitVec 32) :
    ((∀ r ud, (ldecodeAt sp numbers mem st data size).result =
        .ok (some (r, ud)) → 0 ≤ r ∧ r ≤ size.toInt) ∧
      ∀ e ∈ (ldecodeAt sp numbers mem st data size).events, e.Inside ∧
        Input.Covers ⟨data, size.toInt.toNat⟩ e.input.start
          (e.input.start + e.input.size)) ↔
      ∀ e ∈ (ldecodeAt sp numbers mem st data size).events, ¬ e.Overlong := by
  have h : (ldecodeAt sp numbers mem st data size).Exact
      ⟨data, size.toInt.toNat⟩ :=
    sprotoDecodeAt_exact (decodeAt_exact sp numbers mem _) st data size _
  constructor
  · rintro ⟨-, hinside⟩
    exact h.inside_iff.mp fun e he => (hinside e he).1
  · intro hshort
    have hinside := h.inside_iff.mpr hshort
    exact ⟨fun r ud hr => sprotoDecodeAt_le st hr,
      fun e he => ⟨hinside e he, h.within hinside e he⟩⟩

/-! ## A string of four gigabytes less a byte -/

/-- The type `S { s 0 : string }`. -/
def stringBundle : List UInt8 :=
  [1, 0, 0, 0, 38, 0, 0, 0, 34, 0, 0, 0, 2, 0, 0, 0, 0, 0, 1, 0, 0, 0, 83,
    19, 0, 0, 0, 15, 0, 0, 0, 4, 0, 0, 0, 6, 0, 1, 0, 2, 0, 1, 0, 0, 0, 115]

def stringType : SprotoType :=
  ⟨[83], 0, 1, [⟨0, .string, false, [115], none, 0⟩]⟩

def stringSproto : Sproto := ⟨[stringType], []⟩

/-- A struct of one field whose data has the length `0xffffffff`. -/
def hostileBytes : List UInt8 := [1, 0, 0, 0, 0xff, 0xff, 0xff, 0xff]

/-- No number is converted here. -/
def decimals : Numbers :=
  ⟨fun _ => none, fun _ => [], fun _ _ => 0, fun _ _ => 0⟩

/-- The string is passed to the callback with a negative length. -/
theorem string_passed_outside :
    sprotoCreate stringBundle = .ok stringSproto ∧
      stringType ∈ stringSproto.types ∧
      ∃ e ∈ (ldecodeAt stringSproto decimals
        (fun p => hostileBytes.getD p 0) stringType 0 8#32).events,
          ¬ e.Inside := by
  refine ⟨by decide +kernel, List.mem_cons_self, ?_⟩
  have hevents : (ldecodeAt stringSproto decimals
      (fun p => hostileBytes.getD p 0) stringType 0 8#32).events.getLast? =
        some ⟨⟨0, 8⟩, .pass 8 (-1)⟩ := rfl
  refine ⟨⟨⟨0, 8⟩, .pass 8 (-1)⟩, List.mem_of_getLast? hevents, ?_⟩
  · rintro ⟨hnonneg, -⟩
    exact absurd hnonneg (by decide)

end SkynetServer.Sproto
