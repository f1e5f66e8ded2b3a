import SkynetServer.Sproto.Loaded
import SkynetServer.Sproto.Within

/-!
# The records in the header

`sproto_encode` leaves room for `maxn` records in front of the data.  For any
type that was imported and any callback, the records that are still left are
enough for the fields that are still to come, whichever of them were absent so
far.
-/

namespace SkynetServer.Sproto

open Fallible LittleEndian Memory

/-- Where a record starts.  The data starts behind `maxn` of them. -/
def recordAt (index : ℕ) : ℕ := sizeofHeader + sizeofField * index

theorem recordAt_le {i j : ℕ} (h : i ≤ j) : recordAt i ≤ recordAt j := by
  unfold recordAt sizeofHeader sizeofField
  omega

theorem recordAt_succ (i : ℕ) : recordAt (i + 1) = recordAt i + 2 := by
  unfold recordAt sizeofHeader sizeofField
  omega

/-! ## The records that are needed -/

/-- The records of a field that is present, behind the tag `last`. -/
def needed (last : ℤ) (f : Field) : ℕ := if (f.tag : ℤ) > last + 1 then 2 else 1

/-- The tag before the fields only decides whether the first of them needs a
record for skipped tags. -/
theorem slots_le_succ (last before : ℤ) (fs : List Field) :
    slots last fs ≤ slots before fs + 1 := by
  cases fs with
  | nil => exact Nat.zero_le _
  | cons f fs =>
      rw [slots, slots]
      split
      · split
        all_goals omega
      · split
        all_goals omega

/-- A field that is absent pays for the skipped tags before the next one. -/
theorem slots_le_cons (last : ℤ) (f : Field) (fs : List Field) :
    slots last fs ≤ slots last (f :: fs) := by
  have h := slots_le_succ last f.tag fs
  rw [slots]
  split
  all_goals omega

theorem slots_cons (last : ℤ) (f : Field) (fs : List Field) :
    slots last (f :: fs) = needed last f + slots f.tag fs := rfl

/-! ## The records of one field -/

section Record

variable {f : Field} {value sz n : ℕ} {data : List UInt8}
variable {frame frame' : Frame}

/-- Between the two buffers only the records from `i` on and below `j` may
differ. -/
structure SameBut (buffer buffer' : List UInt8) (i j : ℕ) : Prop where
  length : buffer'.length = buffer.length
  front : buffer'.take (recordAt i) = buffer.take (recordAt i)
  behind : buffer'.drop (recordAt j) = buffer.drop (recordAt j)

theorem SameBut.refl (buffer : List UInt8) (i : ℕ) :
    SameBut buffer buffer i i := ⟨rfl, rfl, rfl⟩

theorem take_of_take {b b' : List UInt8} {p q : ℕ} (hp : p ≤ q)
    (h : b'.take q = b.take q) : b'.take p = b.take p := by
  have := congrArg (List.take p) h
  rwa [List.take_take, List.take_take, Nat.min_eq_left hp] at this

theorem drop_of_drop {b b' : List UInt8} {p q : ℕ} (hp : q ≤ p)
    (h : b'.drop q = b.drop q) : b'.drop p = b.drop p := by
  have := congrArg (List.drop (p - q)) h
  rwa [List.drop_drop, List.drop_drop, Nat.add_sub_cancel' hp] at this

theorem SameBut.trans
    {b b' b'' : List UInt8} {i j k : ℕ} (h : SameBut b b' i j)
    (h' : SameBut b' b'' j k) (hij : i ≤ j) (hjk : j ≤ k) :
    SameBut b b'' i k :=
  ⟨h'.length.trans h.length,
    (take_of_take (recordAt_le hij) h'.front).trans h.front,
    h'.behind.trans (drop_of_drop (recordAt_le hjk) h.behind)⟩

/-- One record is written. -/
theorem sameBut_store
    {buffer : List UInt8} {i : ℕ} (h : recordAt (i + 1) ≤ buffer.length)
    (v : ℕ) : SameBut buffer (store buffer (recordAt i) (bytes 2 v)) i
      (i + 1) := by
  rw [recordAt_succ] at h
  have hfits : recordAt i + (bytes 2 v).length ≤ buffer.length := by
    rw [length_bytes]
    exact h
  refine ⟨length_store hfits, ?_, ?_⟩
  · exact take_store_of_le (by omega) (Nat.le_refl _)
  · rw [recordAt_succ]
    exact drop_store_of_le hfits
      (Nat.add_le_add_left (Nat.le_of_eq (length_bytes 2 v)) _)

theorem putSkip_sameBut
    {buffer buffer' : List UInt8} {i j : ℕ} {tag : ℤ}
    (hroom : recordAt (i + 1) ≤ buffer.length)
    (h : putSkip buffer i tag = some (buffer', j)) :
    SameBut buffer buffer' i j ∧ j = i + if tag > 0 then 1 else 0 := by
  unfold putSkip at h
  split at h
  · rename_i hpos
    dsimp only at h
    split at h
    · cases h
    · cases h
      rw [if_pos hpos]
      exact ⟨sameBut_store hroom _, rfl⟩
  · rename_i hneg
    cases h
    rw [if_neg hneg]
    exact ⟨.refl _ _, rfl⟩

/-- A field that is present has its records written; otherwise there is none. -/
theorem putRecord_frame
    (hroom : recordAt (frame.index + needed frame.lasttag f) ≤
      (frame.buffer.take frame.data ++ data).length)
    (h : putRecord f value sz data frame = some frame') :
    SameBut (frame.buffer.take frame.data ++ data) frame'.buffer frame.index
        frame'.index ∧
      (sz = 0 ∧ frame'.index = frame.index ∧ frame'.data = frame.data ∧
          frame'.lasttag = frame.lasttag ∨
        sz ≠ 0 ∧ frame'.index = frame.index + needed frame.lasttag f ∧
          frame'.data = (if value = 0 then frame.data + sz else frame.data) ∧
          frame'.lasttag = f.tag) := by
  unfold putRecord at h
  dsimp only at h
  split at h
  · rename_i hzero
    cases h
    exact ⟨.refl _ _, .inl ⟨hzero, rfl, rfl, rfl⟩⟩
  · rename_i hsz
    obtain ⟨⟨buffer, j⟩, hskip, heq⟩ := Option.map_eq_some_iff.mp h
    have hone : 1 ≤ needed frame.lasttag f := by
      unfold needed
      split
      all_goals omega
    have hfirst : recordAt (frame.index + 1) ≤
        (frame.buffer.take frame.data ++ data).length :=
      Nat.le_trans (recordAt_le (by omega)) hroom
    obtain ⟨hsame, hj⟩ := putSkip_sameBut hfirst hskip
    have hindex : j + 1 = frame.index + needed frame.lasttag f := by
      unfold needed
      rw [hj]
      split
      · rw [if_pos (by omega)]
      · rw [if_neg (by omega)]
    have hrecord : SameBut buffer
        (store buffer (recordAt j) (bytes 2 value)) j (j + 1) :=
      sameBut_store (by rw [hindex, hsame.length]; exact hroom) value
    subst heq
    exact ⟨hsame.trans hrecord (by rw [hj]; exact Nat.le_add_right _ _)
      (Nat.le_succ j), .inr ⟨hsz, hindex, rfl, rfl⟩⟩

end Record

/-! ## The loop -/

/-- What is known when the fields are still to come: the records that are left
are enough for them. -/
structure Slotted (maxn n : ℕ) (fs : List Field) (frame : Frame) : Prop where
  slots : frame.index + slots frame.lasttag fs ≤ maxn
  start : recordAt maxn ≤ frame.data
  data : frame.data ≤ n
  length : frame.buffer.length = n

section Loop

variable {σ : Type*} {cb : Arg → σ → Except Failure (Reply σ)}
variable {f : Field} {fs : List Field} {frame frame' : Frame} {ud ud' : σ}
variable {value sz maxn n : ℕ} {data : List UInt8}

/-- The variables of the loop, with the fields that are still to come. -/
structure Turning (σ : Type*) where
  fields : List Field
  frame : Frame
  ud : σ

/-- One turn of the loop of `sproto_encode` that goes on. -/
inductive Turn (cb : Arg → σ → Except Failure (Reply σ)) :
    Turning σ → Turning σ → Prop
  | mk {f : Field} {fs : List Field} {frame frame' : Frame} {ud ud' : σ}
      {value sz : ℕ} {data : List UInt8} :
      encodeField cb f (frame.buffer.drop frame.data) ud =
        .ok (.next (value, sz, data) ud') →
      putRecord f value sz data frame = some frame' →
        Turn cb ⟨f :: fs, frame, ud⟩ ⟨fs, frame', ud'⟩

/-- The loop as it is left. -/
theorem turns_of_encodeFields
    (h : encodeFields cb fs frame ud = .ok (.next frame' ud')) :
    Relation.ReflTransGen (Turn cb) ⟨fs, frame, ud⟩ ⟨[], frame', ud'⟩ := by
  induction fs generalizing frame ud with
  | nil =>
      cases h
      exact .refl
  | cons f fs ih =>
      rw [encodeFields] at h
      obtain ⟨outcome, hfield, h⟩ := bind_ok_iff.mp h
      cases outcome with
      | fail | leave ud => cases h
      | next p ud =>
          obtain ⟨value, sz, data⟩ := p
          dsimp only at h
          split at h
          · cases h
          · rename_i frame hput
            exact .head (.mk hfield hput) (ih h)

/-- One turn, whether the field is present or not. -/
theorem Slotted.turn
    (hcb : Obeys cb) (h : Slotted maxn n (f :: fs) frame)
    (hfield : encodeField cb f (frame.buffer.drop frame.data) ud =
      .ok (.next (value, sz, data) ud'))
    (hput : putRecord f value sz data frame = some frame') :
    Slotted maxn n fs frame' ∧
      SameBut (frame.buffer.take frame.data ++ data) frame'.buffer frame.index
        frame'.index ∧ frame.index ≤ frame'.index := by
  have hslots := h.slots
  have hstart := h.start
  have hdata := h.data
  have hlength := h.length
  obtain ⟨hkept, hsize⟩ := encodeField_inside hcb hfield
  rw [List.length_drop] at hkept hsize
  have hboth : (frame.buffer.take frame.data ++ data).length = n := by
    rw [List.length_append, List.length_take, hkept]
    omega
  have hneeded : frame.index + needed frame.lasttag f ≤ maxn := by
    rw [slots_cons] at hslots
    omega
  have hroom : recordAt (frame.index + needed frame.lasttag f) ≤
      (frame.buffer.take frame.data ++ data).length := by
    have := recordAt_le hneeded
    omega
  obtain ⟨hsame, hcase⟩ := putRecord_frame hroom hput
  rcases hcase with ⟨-, hindex, hend, hlast⟩ | ⟨-, hindex, hend, hlast⟩
  · refine ⟨⟨?_, ?_, ?_, hsame.length.trans hboth⟩, hsame, by omega⟩
    · have := slots_le_cons frame.lasttag f fs
      rw [hindex, hlast]
      omega
    · omega
    · omega
  · refine ⟨⟨?_, ?_, ?_, hsame.length.trans hboth⟩, hsame, by omega⟩
    · rw [slots_cons] at hslots
      rw [hindex, hlast]
      omega
    · rw [hend]
      split
      all_goals omega
    · rw [hend]
      split
      · rename_i hzero
        have := hsize hzero
        omega
      · exact hdata

/-- Every turn keeps what is known. -/
theorem slotted_of_turns
    {s t : Turning σ} (hcb : Obeys cb) (h : Slotted maxn n s.fields s.frame)
    (hturns : Relation.ReflTransGen (Turn cb) s t) :
    Slotted maxn n t.fields t.frame := by
  induction hturns with
  | refl => exact h
  | tail _ hturn ih =>
      cases hturn with
      | mk hfield hput => exact (ih.turn hcb hfield hput).1

end Loop

/-! ## The move -/

/-- The records and the data behind each other. -/
theorem moved_contiguous
    {frame : Frame} {maxn n : ℕ} (h : Slotted maxn n [] frame)
    {header out : List UInt8}
    (hheader : header = store frame.buffer 0 (bytes 2 frame.index))
    (hout : out = if frame.index ≠ maxn then
        store header (recordAt frame.index)
          (load header (recordAt maxn) (frame.data - recordAt maxn))
      else header) :
    out.length = n ∧
      out.take (recordAt frame.index + (frame.data - recordAt maxn)) =
        bytes 2 frame.index ++ load frame.buffer 2 (2 * frame.index) ++
          load frame.buffer (recordAt maxn)
            (frame.data - recordAt maxn) := by
  have hstart := h.start
  have hdata := h.data
  have hlength := h.length
  have hindex : frame.index ≤ maxn := h.slots
  have hle := recordAt_le hindex
  have hfirst : recordAt frame.index = 2 + 2 * frame.index := rfl
  have hfits : 0 + (bytes 2 frame.index).length ≤ frame.buffer.length := by
    rw [length_bytes]
    omega
  have hlen : header.length = n := by
    rw [hheader, length_store hfits, hlength]
  have hcount := load_store hfits
  rw [length_bytes, ← hheader] at hcount
  have hbehind : ∀ q k, 2 ≤ q → load header q k = load frame.buffer q k := by
    intro q k hq
    rw [hheader, load_store_of_disjoint hfits
      (.inr (by rw [length_bytes]; omega))]
  have hfront : header.take (recordAt frame.index) =
      bytes 2 frame.index ++ load frame.buffer 2 (2 * frame.index) := by
    have hsplit := load_add header 0 2 (2 * frame.index)
    rw [hcount, Nat.zero_add, hbehind _ _ (Nat.le_refl _)] at hsplit
    exact hsplit
  have hload := hbehind (recordAt maxn) (frame.data - recordAt maxn) (by omega)
  have hloaded : (load frame.buffer (recordAt maxn)
      (frame.data - recordAt maxn)).length = frame.data - recordAt maxn :=
    length_load (by omega)
  rw [hload] at hout
  generalize load frame.buffer (recordAt maxn) (frame.data - recordAt maxn) =
    block at hload hloaded hout ⊢
  rw [List.take_add]
  by_cases hfull : frame.index = maxn
  · rw [if_neg (not_not_intro hfull)] at hout
    have hrest : (header.drop (recordAt frame.index)).take
        (frame.data - recordAt maxn) = block := by
      rw [hfull]
      exact hload
    rw [hout, hfront, hrest]
    exact ⟨hlen, rfl⟩
  · rw [if_pos hfull] at hout
    have hroom : recordAt frame.index + block.length ≤ header.length := by
      omega
    have hwritten := load_store hroom
    rw [hloaded] at hwritten
    have hrest : ((store header (recordAt frame.index) block).drop
        (recordAt frame.index)).take (frame.data - recordAt maxn) = block :=
      hwritten
    rw [hout, take_store_of_le (by omega) (Nat.le_refl _), hfront, hrest]
    exact ⟨(length_store hroom).trans hlen, rfl⟩

section Encode

variable {σ : Type*} {cb : Arg → σ → Except Failure (Reply σ)}
variable {st : SprotoType} {buffer out : List UInt8} {size : ℕ} {ud ud' : σ}

/-- All the records are left when the loop starts. -/
theorem SprotoType.Loaded.slotted
    (h : st.Loaded) (hroom : recordAt st.maxn ≤ buffer.length) :
    Slotted st.maxn buffer.length st.f ⟨buffer, recordAt st.maxn, 0, -1⟩ := by
  refine ⟨?_, Nat.le_refl _, hroom, rfl⟩
  dsimp only
  rw [Nat.zero_add]
  exact Nat.le_of_eq h.maxn.symm

theorem headerSz_eq (st : SprotoType) :
    sizeofHeader + st.maxn * sizeofField = recordAt st.maxn := by
  rw [recordAt, Nat.mul_comm]

/-- What is returned when the loop has left the frame. -/
theorem sprotoEncode_end
    (hloaded : st.Loaded) (hcb : Obeys cb)
    (hroom : recordAt st.maxn ≤ buffer.length)
    (h : sprotoEncode cb st buffer ud = .ok (some (out, size, ud'))) :
    (size = 0 ∧ out = buffer) ∨
      ∃ frame, Relation.ReflTransGen (Turn cb)
          ⟨st.f, ⟨buffer, recordAt st.maxn, 0, -1⟩, ud⟩ ⟨[], frame, ud'⟩ ∧
        size = recordAt frame.index + (frame.data - recordAt st.maxn) ∧
        size ≤ out.length ∧ out.length = buffer.length ∧
        out.take size = bytes 2 frame.index ++
          load frame.buffer 2 (2 * frame.index) ++
          load frame.buffer (recordAt st.maxn)
            (frame.data - recordAt st.maxn) := by
  unfold sprotoEncode at h
  rw [headerSz_eq] at h
  dsimp only at h
  rw [if_neg (Nat.not_lt.mpr hroom)] at h
  obtain ⟨outcome, hloop, h⟩ := map_ok_iff.mp h
  cases outcome with
  | fail => cases h
  | leave ud =>
      cases h
      exact .inl ⟨rfl, rfl⟩
  | next frame ud =>
      have hturns := turns_of_encodeFields hloop
      have hslotted := slotted_of_turns hcb (hloaded.slotted hroom) hturns
      have hle : recordAt frame.index ≤ recordAt st.maxn :=
        recordAt_le hslotted.slots
      have hstart := hslotted.start
      have hdata := hslotted.data
      have hindex : sizeofHeader + frame.index * sizeofField =
          recordAt frame.index := by
        rw [recordAt, Nat.mul_comm]
      have hsize : recordAt frame.index +
          (frame.data - recordAt st.maxn) ≤ buffer.length := by
        dsimp only at hstart hdata hle
        omega
      obtain ⟨hlength, htake⟩ := moved_contiguous hslotted rfl rfl
      dsimp only at h
      rw [hindex] at h
      cases h
      exact .inr ⟨frame, hturns, rfl, by rw [hlength]; exact hsize,
        hlength, htake⟩

/-- A struct is written inside its block. -/
theorem sprotoEncode_inside
    (hloaded : st.Loaded) (hcb : Obeys cb)
    (h : sprotoEncode cb st buffer ud = .ok (some (out, size, ud'))) :
    Inside buffer out size := by
  by_cases hroom : recordAt st.maxn ≤ buffer.length
  · rcases sprotoEncode_end hloaded hcb hroom h with
      ⟨rfl, rfl⟩ | ⟨frame, -, -, hsize, hlength, -⟩
    · exact .refl (Nat.zero_le _)
    · exact ⟨hlength, hlength ▸ hsize⟩
  · unfold sprotoEncode at h
    rw [headerSz_eq] at h
    dsimp only at h
    rw [if_pos (Nat.lt_of_not_le hroom)] at h
    cases h

end Encode

/-- The callback of the Lua binding obeys, as it encodes the structs in a struct
with the same function. -/
theorem encode_obeys
    {sp : Sproto} (hloaded : ∀ st ∈ sp.types, st.Loaded) (numbers : Numbers)
    (level : ℕ) : Obeys (encode sp numbers level) := by
  induction level with
  | zero =>
      intro args self sz value self' h
      cases h
  | succ level ih =>
      intro args self sz value self' h hinteger hboolean
      rw [encode] at h
      obtain ⟨r, hfetch, h⟩ := bind_ok_iff.mp h
      split at h
      · cases h
      · cases h
      · rename_i v self _
        unfold encodeValue at h
        split at h
        · rename_i htype
          exact absurd htype hinteger
        · rename_i htype
          exact absurd htype hboolean
        · split at h
          · rename_i str hstr
            split at h
            · cases h
            · rename_i hfits
              cases h
              exact ⟨length_store (by omega), by omega⟩
          · cases h
        · rename_i st htype
          dsimp only at h
          cases hsub : sprotoEncode (encode sp numbers level) (sp.type st)
            args.value ⟨v, none, [], []⟩ with
          | error e =>
              rw [hsub] at h
              cases h
          | ok r =>
              rw [hsub] at h
              cases r with
              | none => cases h
              | some r =>
                  obtain ⟨out, size, ud⟩ := r
                  cases h
                  exact sprotoEncode_inside (loaded_type hloaded st) ih hsub

/-- For a type that was imported and any callback, whichever fields it leaves
out: every record that a turn writes is one of `maxn`, so it is in front of the
data, and nothing else of the buffer is changed by it.  In the end the number of
records, the records and the data are behind each other. -/
theorem sprotoEncode_records
    {σ : Type*} {cb : Arg → σ → Except Failure (Reply σ)} {typeN : ℕ}
    {stream rest : List UInt8} {st : SprotoType}
    (himport : importType typeN stream = .ok (st, rest)) (hcb : Obeys cb)
    (buffer : List UInt8) (ud : σ) :
    (buffer.length < recordAt st.maxn →
      sprotoEncode cb st buffer ud = .ok none) ∧
    (recordAt st.maxn ≤ buffer.length →
      (∀ fs frame ud₁,
        Relation.ReflTransGen (Turn cb)
          ⟨st.f, ⟨buffer, recordAt st.maxn, 0, -1⟩, ud⟩ ⟨fs, frame, ud₁⟩ →
        frame.index ≤ st.maxn ∧ recordAt st.maxn ≤ frame.data ∧
          frame.data ≤ buffer.length ∧
          frame.buffer.length = buffer.length ∧
        ∀ f gs value sz data ud₂ frame', fs = f :: gs →
          encodeField cb f (frame.buffer.drop frame.data) ud₁ =
            .ok (.next (value, sz, data) ud₂) →
          putRecord f value sz data frame = some frame' →
          frame.index ≤ frame'.index ∧ frame'.index ≤ st.maxn ∧
            frame'.buffer.take (recordAt frame.index) =
              (frame.buffer.take frame.data ++ data).take
                (recordAt frame.index) ∧
            frame'.buffer.drop (recordAt frame'.index) =
              (frame.buffer.take frame.data ++ data).drop
                (recordAt frame'.index)) ∧
      ∀ out size ud₁,
        sprotoEncode cb st buffer ud = .ok (some (out, size, ud₁)) →
        (size = 0 ∧ out = buffer) ∨
          ∃ frame, Relation.ReflTransGen (Turn cb)
              ⟨st.f, ⟨buffer, recordAt st.maxn, 0, -1⟩, ud⟩
              ⟨[], frame, ud₁⟩ ∧
            size = recordAt frame.index +
              (frame.data - recordAt st.maxn) ∧
            size ≤ out.length ∧ out.length = buffer.length ∧
            out.take size = bytes 2 frame.index ++
              load frame.buffer 2 (2 * frame.index) ++
              load frame.buffer (recordAt st.maxn)
                (frame.data - recordAt st.maxn)) := by
  have hloaded := importType_loaded himport
  refine ⟨fun hsmall => ?_, fun hroom => ⟨fun fs frame ud₁ hturns => ?_,
    fun out size ud₁ h => sprotoEncode_end hloaded hcb hroom h⟩⟩
  · unfold sprotoEncode
    rw [headerSz_eq]
    exact if_pos hsmall
  · have hslotted := slotted_of_turns hcb (hloaded.slotted hroom) hturns
    refine ⟨Nat.le_trans (Nat.le_add_right _ _) hslotted.slots, hslotted.start,
      hslotted.data, hslotted.length, ?_⟩
    rintro f gs value sz data ud₂ frame' rfl hfield hput
    obtain ⟨hnext, hsame, hindex⟩ := hslotted.turn hcb hfield hput
    exact ⟨hindex, Nat.le_trans (Nat.le_add_right _ _) hnext.slots, hsame.front,
      hsame.behind⟩

/-- A type with gaps before its first and its second field. -/
def gapType : List UInt8 :=
  [72, 0, 0, 0, 2, 0, 0, 0, 0, 0, 1, 0, 0, 0, 84, 57, 0, 0, 0,
    15, 0, 0, 0, 4, 0, 0, 0, 2, 0, 1, 0, 4, 0, 1, 0, 0, 0, 97,
    15, 0, 0, 0, 4, 0, 0, 0, 2, 0, 1, 0, 8, 0, 1, 0, 0, 0, 98,
    15, 0, 0, 0, 4, 0, 0, 0, 2, 0, 1, 0, 10, 0, 1, 0, 0, 0, 99]

/-- The type that is imported: five records for three fields. -/
def gapStruct : SprotoType :=
  ⟨[84], -1, 5, [⟨1, .integer, false, [97], none, 0⟩,
    ⟨3, .integer, false, [98], none, 0⟩, ⟨4, .integer, false, [99], none, 0⟩]⟩

/-- The second field is absent, the others are integers. -/
def leaveSecond (args : Arg) (ud : Unit) : Except Failure (Reply Unit) :=
  if args.tagid = 3 ∨ args.value.length < 4 then .ok (.nil ud)
  else .ok (.size 4 (bytes 4 0x8000 ++ args.value.drop 4) ud)

theorem leaveSecond_obeys : Obeys leaveSecond := by
  intro args ud sz value ud' h _ _
  unfold leaveSecond at h
  split at h
  · cases h
  · rename_i hroom
    cases h
    rw [List.length_append, length_bytes, List.length_drop]
    omega

/-- Four of five records are written, and the data is moved. -/
theorem sprotoEncode_gapType :
    importType 1 gapType = .ok (gapStruct, []) ∧
    ∃ out, sprotoEncode leaveSecond gapStruct (List.replicate 40 0) () =
        .ok (some (out, 26, ())) ∧
      ∃ frame, Relation.ReflTransGen (Turn leaveSecond)
          ⟨gapStruct.f,
            ⟨List.replicate 40 0, recordAt gapStruct.maxn, 0, -1⟩, ()⟩
          ⟨[], frame, ()⟩ ∧
        frame.index ≤ gapStruct.maxn ∧
        26 = recordAt frame.index + (frame.data - recordAt gapStruct.maxn) := by
  have himport : importType 1 gapType = .ok (gapStruct, []) := by
    decide +kernel
  have hencode : sprotoEncode leaveSecond gapStruct (List.replicate 40 0) () =
      .ok (some ([4, 0, 1, 0, 0, 0, 3, 0, 0, 0, 4, 0, 0, 0, 0, 128, 0, 0, 4, 0,
        0, 0, 0, 128, 0, 0] ++ List.replicate 14 0, 26, ())) := by
    decide +kernel
  obtain ⟨-, hroom⟩ := sprotoEncode_records himport leaveSecond_obeys
    (List.replicate 40 0) ()
  obtain ⟨hreached, hend⟩ := hroom (by decide)
  refine ⟨himport, _, hencode, ?_⟩
  rcases hend _ 26 () hencode with ⟨hzero, -⟩ | ⟨frame, hturns, hsize, -⟩
  · cases hzero
  · exact ⟨frame, hturns, (hreached _ _ _ hturns).1, hsize⟩

end SkynetServer.Sproto
