import SkynetServer.Support.Fallible
import SkynetServer.Sproto.IntegerArrays

/-!
# Encoders within their block

What a callback promises to the encoder, and that every function of the encoder
then writes inside the block that it is given and returns a size within it.
-/

namespace SkynetServer.Sproto

open Fallible LittleEndian Memory

/-- The callback writes a string or a struct to the block behind `value`, and
the size that it returns is within the block.  A number is written to a variable
of the encoder. -/
def Obeys {σ : Type*} (cb : Arg → σ → Except Failure (Reply σ)) : Prop :=
  ∀ args ud sz value ud', cb args ud = .ok (.size sz value ud') →
    args.type ≠ .integer → args.type ≠ .boolean →
      value.length = args.value.length ∧ sz ≤ args.value.length

/-- The block after a call, with a size within it. -/
def Inside (data data' : List UInt8) (sz : ℕ) : Prop :=
  data'.length = data.length ∧ sz ≤ data.length

section Blocks

variable {data data' : List UInt8} {sz v : ℕ}

theorem Inside.refl (h : sz ≤ data.length) : Inside data data sz := ⟨rfl, h⟩

theorem length_store_bytes {p n : ℕ} (h : p + n ≤ data.length) (v : ℕ) :
    (store data p (bytes n v)).length = data.length :=
  length_store (by rwa [length_bytes])

theorem inside_fillSize (h : sz + 4 ≤ data.length) :
    Inside data (fillSize data sz).1 (fillSize data sz).2 :=
  ⟨length_store_bytes (by rw [sizeofLength]; omega) sz, h⟩

theorem encodeInteger_inside
    (h : encodeInteger v data = some (data', sz)) : Inside data data' sz := by
  unfold encodeInteger at h
  split at h
  · cases h
  · rename_i hroom
    rw [sizeofLength, sizeofInt32] at hroom
    have hlen := @length_store_bytes data 4 4 (by omega) v
    have hfits := @inside_fillSize (store data 4 (bytes 4 v)) 4 (by omega)
    cases h
    exact ⟨hfits.1.trans hlen, hlen ▸ hfits.2⟩

theorem encodeUint64_inside
    (h : encodeUint64 v data = some (data', sz)) : Inside data data' sz := by
  unfold encodeUint64 at h
  split at h
  · cases h
  · rename_i hroom
    rw [sizeofLength, sizeofInt64] at hroom
    have hlen := @length_store_bytes data 4 8 (by omega) v
    have hfits := @inside_fillSize (store data 4 (bytes 8 v)) 8 (by omega)
    cases h
    exact ⟨hfits.1.trans hlen, hlen ▸ hfits.2⟩

/-- The size in front of a part that was written behind it. -/
theorem inside_fillSize_append
    {buffer : List UInt8} (hdata : 4 ≤ data.length)
    (h : Inside (data.drop 4) buffer sz) :
    Inside data (fillSize (data.take 4 ++ buffer) sz).1
      (fillSize (data.take 4 ++ buffer) sz).2 := by
  obtain ⟨hlength, hsz⟩ := h
  rw [List.length_drop] at hlength hsz
  have hboth : (data.take 4 ++ buffer).length = data.length := by
    rw [List.length_append, List.length_take, hlength]
    omega
  have hfits := @inside_fillSize (data.take 4 ++ buffer) sz (by omega)
  exact ⟨hfits.1.trans hboth, hboth ▸ hfits.2⟩

end Blocks

/-! ## Arrays of integers -/

/-- The variables of the loop for a block of `n` bytes. -/
structure IntegerArray.Within (a : IntegerArray) (n : ℕ) : Prop where
  length : a.header.length = n
  index : 1 ≤ a.index
  intlen : a.intlen = 4 ∨ a.intlen = 8
  buffer : a.buffer = 1 + (a.index - 1) * a.intlen
  room : a.buffer ≤ n

section Integers

variable {a a' : IntegerArray} {n sz : ℕ} {u : List UInt8}

/-- The next element was written. -/
theorem IntegerArray.Within.push
    {header : List UInt8} (h : a.Within n) (hlength : header.length = n)
    (hroom : a.buffer + 8 ≤ n) :
    (IntegerArray.mk header (a.buffer + a.intlen) a.intlen
      (a.index + 1)).Within n := by
  have hindex := h.index
  have hcount : a.index + 1 - 1 = a.index - 1 + 1 := by omega
  refine ⟨hlength, Nat.le_add_left 1 _, h.intlen, ?_, ?_⟩
  · dsimp only
    rw [hcount, Nat.succ_mul, h.buffer, Nat.add_assoc]
  · dsimp only
    rcases h.intlen with heq | heq
    · omega
    · omega

theorem rearrange_within
    (h : a.Within n) (hroom : a.buffer + 8 ≤ n)
    (heq : rearrange a = some a') : a'.Within n ∧ a'.buffer + 8 ≤ n := by
  have hlength := h.length
  have hbuffer := h.buffer
  unfold rearrange at heq
  split at heq
  · rename_i hfour
    rw [sizeofInt32] at hfour
    rw [hfour] at hbuffer
    dsimp only at heq
    rw [sizeofInt32, sizeofInt64, hlength] at heq
    split at heq
    · cases heq
    · cases heq
      have hmoved := @moved_append a.header 0 (a.index - 1)
        (by omega) [] (Nat.zero_le _)
      refine ⟨⟨?_, h.index, .inr rfl, ?_, ?_⟩, ?_⟩
      · dsimp only
        rw [widen_eq_moved, hmoved.2, hlength]
      · dsimp only
        omega
      · dsimp only
        omega
      · dsimp only
        omega
  · cases heq
    exact ⟨h, hroom⟩

theorem putInteger_within
    (h : a.Within n) (heq : putInteger a sz u = some a') : a'.Within n := by
  have hlength := h.length
  unfold putInteger at heq
  split at heq
  · cases heq
  rename_i hroom
  rw [hlength, sizeofInt64] at hroom
  split at heq
  · dsimp only at heq
    have hstore := @length_store_bytes a.header a.buffer 4 (by omega)
      (todword u)
    cases heq
    refine h.push ?_ (by omega)
    split
    · rw [length_uint32ToUint64 (by omega), hstore, hlength]
    · rw [hstore, hlength]
  · split at heq
    · cases heq
    · obtain ⟨b, hb, heq⟩ := Option.map_eq_some_iff.mp heq
      obtain ⟨hwithin, hfits⟩ := rearrange_within h (by omega) hb
      subst heq
      refine hwithin.push ?_ hfits
      rw [length_store_bytes (by rw [hwithin.length]; exact hfits),
        hwithin.length]

end Integers

/-! ## The functions of the encoder -/

section Encode

variable {σ : Type*} {cb : Arg → σ → Except Failure (Reply σ)}
variable {args : Arg} {ud ud' : σ}
variable {data data' : List UInt8} {sz fuel index buffer buffer' : ℕ}
variable {noarray : Bool}

theorem encodeObject_inside
    (hcb : Obeys cb) (hinteger : args.type ≠ .integer)
    (hboolean : args.type ≠ .boolean)
    (h : encodeObject cb args data ud = .ok (some (data', sz, ud'))) :
    Inside data data' sz := by
  unfold encodeObject at h
  split at h
  · cases h
  rename_i hroom
  rw [sizeofLength] at hroom h
  obtain ⟨reply, hreply, h⟩ := bind_ok_iff.mp h
  dsimp only at h
  cases reply with
  | error => cases h
  | nil ud =>
      cases h
      exact .refl (Nat.zero_le _)
  | noarray ud => cases h
  | size sz value ud =>
      have hobeys := hcb _ _ _ _ _ hreply hinteger hboolean
      dsimp only at h
      split at h
      · cases h
        exact inside_fillSize_append (by omega) hobeys
      · cases h

theorem encodeIntegers_within
    {a a' : IntegerArray} {n : ℕ} (h : a.Within n)
    (heq : encodeIntegers cb args fuel a ud = .ok (some (a', noarray, ud'))) :
    a'.Within n := by
  induction fuel generalizing a ud with
  | zero => cases heq
  | succ fuel ih =>
      rw [encodeIntegers] at heq
      obtain ⟨reply, hreply, heq⟩ := bind_ok_iff.mp heq
      cases reply with
      | error => cases heq
      | nil ud | noarray ud =>
          cases heq
          exact h
      | size sz u ud =>
          dsimp only at heq
          split at heq
          · cases heq
          · rename_i b hput
            exact ih (putInteger_within h hput) heq

theorem encodeIntegerArray_inside
    (h : encodeIntegerArray cb args data ud =
      .ok (some (data', sz, noarray, ud'))) : Inside data data' sz := by
  unfold encodeIntegerArray at h
  split at h
  · cases h
  rename_i hroom
  have hstart : (IntegerArray.mk data 1 sizeofInt32 1).Within data.length :=
    ⟨rfl, Nat.le_refl _, .inl rfl, rfl, by dsimp only; omega⟩
  obtain ⟨r, hloop, h⟩ := map_ok_iff.mp h
  cases r with
  | none => cases h
  | some r =>
      obtain ⟨a, flag, ud⟩ := r
      have hend := encodeIntegers_within hstart hloop
      have hlength := hend.length
      have hbuffer := hend.room
      dsimp only [Option.map] at h
      split at h
      · cases h
        exact ⟨hlength, Nat.zero_le _⟩
      · cases h
        refine ⟨?_, hbuffer⟩
        rw [length_store (by rw [List.length_singleton]; omega), hlength]

theorem encodeBooleans_inside
    (hbuffer : buffer ≤ data.length)
    (h : encodeBooleans cb args fuel data buffer index ud =
      .ok (some (data', sz, noarray, ud'))) : Inside data data' sz := by
  induction fuel generalizing data buffer index ud with
  | zero => cases h
  | succ fuel ih =>
      rw [encodeBooleans] at h
      obtain ⟨reply, hreply, h⟩ := bind_ok_iff.mp h
      cases reply with
      | error => cases h
      | nil ud | noarray ud =>
          cases h
          exact .refl hbuffer
      | size sz v ud =>
          dsimp only at h
          split at h
          · cases h
          · have hlen := @length_store _ data
              [if number (v.take 4) ≠ 0 then (1 : UInt8) else 0] buffer
              (by rw [List.length_singleton]; omega)
            obtain ⟨hlength, hsz⟩ := ih (by omega) h
            exact ⟨hlength.trans hlen, hlen ▸ hsz⟩

theorem encodeObjects_inside
    (hcb : Obeys cb) (hinteger : args.type ≠ .integer)
    (hboolean : args.type ≠ .boolean) (hbuffer : buffer ≤ data.length)
    (h : encodeObjects cb args fuel data buffer index ud =
      .ok (some (data', sz, noarray, ud'))) : Inside data data' sz := by
  induction fuel generalizing data buffer index ud with
  | zero => cases h
  | succ fuel ih =>
      rw [encodeObjects, sizeofLength] at h
      split at h
      · cases h
      rename_i hroom
      obtain ⟨reply, hreply, h⟩ := bind_ok_iff.mp h
      cases reply with
      | error => cases h
      | nil ud | noarray ud =>
          cases h
          exact .refl hbuffer
      | size sz value ud =>
          obtain ⟨hvalue, hsize⟩ := hcb _ _ _ _ _ hreply hinteger hboolean
          dsimp only at hvalue hsize h
          rw [List.length_drop] at hvalue hsize
          have hboth : (data.take (buffer + 4) ++ value).length =
              data.length := by
            rw [List.length_append, List.length_take, hvalue]
            omega
          have hlen := @length_store_bytes (data.take (buffer + 4) ++ value)
            buffer 4 (by omega) sz
          obtain ⟨hlength, hsz⟩ := ih (by omega) h
          exact ⟨hlength.trans (hlen.trans hboth),
            Nat.le_trans hsz (Nat.le_of_eq (hlen.trans hboth))⟩

theorem encodeElements_inside
    (hcb : Obeys cb)
    (h : encodeElements cb args data ud =
      .ok (some (data', sz, noarray, ud'))) : Inside data data' sz := by
  unfold encodeElements at h
  split at h
  · exact encodeIntegerArray_inside h
  · exact encodeBooleans_inside (Nat.zero_le _) h
  · rename_i hinteger hboolean
    exact encodeObjects_inside hcb hinteger hboolean (Nat.zero_le _) h

theorem encodeArray_inside
    (hcb : Obeys cb)
    (h : encodeArray cb args data ud = .ok (some (data', sz, ud'))) :
    Inside data data' sz := by
  unfold encodeArray at h
  split at h
  · cases h
  rename_i hroom
  rw [sizeofLength] at hroom h
  obtain ⟨r, hres, h⟩ := map_ok_iff.mp h
  cases r with
  | none => cases h
  | some r =>
      obtain ⟨buffer, sz, flag, ud⟩ := r
      have hfits := encodeElements_inside hcb hres
      dsimp only [Option.map] at h
      split at h
      · cases h
        have hlength := hfits.1
        rw [List.length_drop] at hlength
        refine ⟨?_, Nat.zero_le _⟩
        rw [List.length_append, List.length_take, hlength]
        omega
      · cases h
        exact inside_fillSize_append (by omega) hfits

/-- A value in the header leaves the block as it was. -/
theorem encodeNumber_inside
    {value : ℕ}
    (h : encodeNumber cb args data ud = .ok (.next (value, sz, data') ud')) :
    data'.length = data.length ∧ (value = 0 → sz ≤ data.length) := by
  unfold encodeNumber at h
  obtain ⟨reply, hreply, h⟩ := map_ok_iff.mp h
  cases reply with
  | error => cases h
  | nil ud =>
      cases h
      exact ⟨rfl, fun _ => Nat.zero_le _⟩
  | noarray ud => cases h
  | size sz u ud =>
      dsimp only at h
      split at h
      · split at h
        · cases h
          exact ⟨rfl, fun hzero => by omega⟩
        · split at h
          · cases h
          · rename_i hinteger
            cases h
            have hfits := encodeInteger_inside hinteger
            exact ⟨hfits.1, fun _ => hfits.2⟩
      · split at h
        · split at h
          · cases h
          · rename_i hinteger
            cases h
            have hfits := encodeUint64_inside hinteger
            exact ⟨hfits.1, fun _ => hfits.2⟩
        · cases h

theorem map_sized
    {r : Except Failure (Option (List UInt8 × ℕ × σ))} {value : ℕ}
    (h : r.map sized = .ok (.next (value, sz, data') ud')) :
    r = .ok (some (data', sz, ud')) := by
  cases r with
  | error e => cases h
  | ok r =>
      cases r with
      | none => cases h
      | some r =>
          cases h
          rfl

/-- What a field leaves behind. -/
theorem encodeField_inside
    {f : Field} {value : ℕ} (hcb : Obeys cb)
    (h : encodeField cb f data ud = .ok (.next (value, sz, data') ud')) :
    data'.length = data.length ∧ (value = 0 → sz ≤ data.length) := by
  unfold encodeField at h
  split at h
  · have hfits := encodeArray_inside hcb (map_sized h)
    exact ⟨hfits.1, fun _ => hfits.2⟩
  · split at h
    · exact encodeNumber_inside h
    · exact encodeNumber_inside h
    · rename_i hinteger hboolean
      have hfits := encodeObject_inside hcb hinteger hboolean (map_sized h)
      exact ⟨hfits.1, fun _ => hfits.2⟩

end Encode

end SkynetServer.Sproto
