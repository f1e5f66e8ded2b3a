import SkynetServer.Bson.Parse

/-!
# Decoding stays inside the document

`check_reader` compares a length with the bytes that are left.  A length that
is too small passes, and moves the reader back.
-/

namespace SkynetServer.Bson

open Logged Parse

section Refinement

variable {m : ℤ → UInt8} {len : ℤ}

/-- `unpack_dict` reads what the bytes say. -/
theorem unpack_matches (hlen : len < 0x80000000) (fuel : ℕ) :
    (∀ r bs array, Holds m len r bs →
      Matches (Fine len) (Reads m len) (unpackDict m fuel r array)
        (parseDict fuel bs array)) ∧
    (∀ r bs array es, Holds m len r bs →
      Matches (Fine len) (fun b a => b = a) (unpackFields m fuel r array es)
        (parseFields fuel bs array es)) := by
  induction fuel with
  | zero =>
      refine ⟨fun r bs array h => ?_, fun r bs array es h => ?_⟩
      · rw [unpackDict, parseDict]
        exact Matches.fail _
      · rw [unpackFields, parseFields]
        exact Matches.fail _
  | succ fuel ih =>
      obtain ⟨ihDict, ihFields⟩ := ih
      refine ⟨fun r bs array h => ?_, fun r bs array es h => ?_⟩
      · rw [unpackDict, parseDict]
        refine (h.readInt32 hlen).bind ?_
        rintro ⟨sz, rest⟩ ⟨sz', r'⟩ ⟨rfl, hr'⟩
        dsimp only at hr' ⊢
        split
        · rename_i hfits
          by_cases hsz : -0x80000000 ≤ sz.toInt - 5
          · refine (int_matches hsz ?_).ok_bind ?_
            · have hhigh := BitVec.toInt_lt (x := sz)
              omega
            · rintro n rfl
              refine (hr'.readBytes_breaks ?_).bind _
              by_contra hfive
              have hmin : (5 : ℤ) ≤ sz.toInt := by omega
              exact hfits ⟨hmin, fun ht => by cases ht⟩
          · exact (int_breaks fun hrange => hsz hrange.1).bind _
        · rename_i hfits
          have hmin : (5 : ℤ) ≤ sz.toInt := (not_not.mp hfits).1
          refine (int_matches (by omega) ?_).ok_bind ?_
          · have hhigh := BitVec.toInt_lt (x := sz)
            omega
          rintro n rfl
          refine (hr'.readBytes hlen (by omega)).bind ?_
          rintro ⟨block, rest'⟩ ⟨p, r''⟩ ⟨hblock, hr'', rfl, hlength, hrest⟩
          dsimp only at hblock hr'' hlength hrest ⊢
          refine Matches.note_bind ?_ ?_
          · have hsize := hr'.size
            rw [hrest, List.length_append] at hsize
            refine ⟨Int.le_refl _, ?_, ?_⟩
            · show 0 ≤ sz.toInt - 5
              omega
            · show r'.ptr + (sz.toInt - 5) ≤ r'.ptr + r'.size
              omega
          refine (hr''.readByte hlen).bind ?_
          rintro ⟨last, rest''⟩ ⟨last', r'''⟩ ⟨rfl, hr'''⟩
          dsimp only at hr''' ⊢
          split
          · exact Matches.fail _
          · refine (ihFields _ _ array [] hblock).bind ?_
            rintro es _ rfl
            exact Matches.pure ⟨rfl, hr'''⟩
      · rw [unpackFields, parseFields]
        have hempty : r.size = 0 ↔ bs = [] := by
          rw [h.size, Int.natCast_eq_zero, List.length_eq_zero_iff]
        by_cases hbs : bs = []
        · rw [if_pos hbs, if_pos (hempty.mpr hbs)]
          exact Matches.pure rfl
        rw [if_neg hbs, if_neg fun hsize => hbs (hempty.mp hsize)]
        refine (h.readByte hlen).bind ?_
        rintro ⟨bt, rest⟩ ⟨bt', r'⟩ ⟨rfl, hr'⟩
        refine (hr'.readCstring hlen).bind ?_
        rintro ⟨key, rest'⟩ ⟨key', r''⟩ ⟨rfl, hr''⟩
        dsimp only at hr'' ⊢
        cases BsonType.ofCode bt with
        | none => exact Matches.fail _
        | some bt =>
          refine (hr''.unpackValue hlen _ fun _ => ihDict _ _ _ hr'').bind ?_
          rintro ⟨v, rest⟩ ⟨v', r'⟩ ⟨rfl, hr'⟩
          exact ihFields _ _ array _ hr'

end Refinement

/-! ## The steps suffice -/

/-- The value has the property, and the steps were enough. -/
def Ends {α : Type} (P : α → Prop) (p : Parse α) : Prop :=
  (∀ a, p = .ok a → P a) ∧ p ≠ .error (.fails .exhausted)

section Ends

variable {α β : Type} {P : α → Prop} {Q : β → Prop}

theorem Ends.pure {a : α} (h : P a) : Ends P (Pure.pure a) := by
  refine ⟨fun b hb => ?_, fun hb => by cases hb⟩
  cases hb
  exact h

theorem Ends.raised : Ends P (Parse.raised : Parse α) :=
  ⟨fun _ h => (by cases h), fun h => (by cases h)⟩

theorem Ends.breaks : Ends P (Parse.breaks : Parse α) :=
  ⟨fun _ h => (by cases h), fun h => (by cases h)⟩

theorem Ends.bind
    {p : Parse α} {f : α → Parse β} (h : Ends P p)
    (hf : ∀ a, P a → Ends Q (f a)) : Ends Q (p >>= f) := by
  cases p with
  | ok a => exact hf a (h.1 a rfl)
  | error e =>
      refine ⟨fun b hb => (by cases hb), fun hb => h.2 ?_⟩
      cases hb
      rfl

theorem Ends.ite
    {c : Prop} [Decidable c] {p q : Parse α} (hp : c → Ends P p)
    (hq : ¬c → Ends P q) : Ends P (if c then p else q) := by
  split
  · exact hp ‹_›
  · exact hq ‹_›

/-- The bytes that are left over are some of the bytes. -/
def Shorter (bs : List UInt8) (k : ℕ) (a : α × List UInt8) : Prop :=
  a.2.length + k ≤ bs.length

theorem takeBytes_ends (n : ℕ) (bs : List UInt8) :
    Ends (fun a => a.1.length ≤ bs.length ∧ Shorter bs n a)
      (takeBytes n bs) := by
  refine Ends.ite (fun _ => Ends.raised) fun hn => Ends.pure ⟨?_, ?_⟩
  · rw [List.length_take]
    omega
  · show (bs.drop n).length + n ≤ bs.length
    rw [List.length_drop]
    omega

theorem takeNumber_ends (n : ℕ) (bs : List UInt8) :
    Ends (Shorter bs n) (takeNumber n bs) :=
  (takeBytes_ends n bs).bind fun _ h => Ends.pure h.2

theorem takeByte_ends (bs : List UInt8) : Ends (Shorter bs 1) (takeByte bs) :=
  (takeNumber_ends 1 bs).bind fun _ h => Ends.pure h

theorem takeInt32_ends (bs : List UInt8) : Ends (Shorter bs 4) (takeInt32 bs) :=
  (takeNumber_ends 4 bs).bind fun _ h => Ends.pure h

theorem takeInt64_ends (bs : List UInt8) : Ends (Shorter bs 8) (takeInt64 bs) :=
  (takeNumber_ends 8 bs).bind fun _ h => Ends.pure h

theorem takeCstring_ends (bs : List UInt8) :
    Ends (Shorter bs 1) (takeCstring bs) := by
  induction bs with
  | nil => exact Ends.raised
  | cons b bs ih =>
      refine Ends.ite (fun _ => Ends.pure ?_) fun _ => ih.bind ?_
      · exact Nat.le_refl _
      · exact fun a ha => Ends.pure (Nat.le_succ_of_le ha)

/-- The steps are enough, and the bytes left over are some of the bytes. -/
abbrev Leaves (bs : List UInt8) (p : Parse (α × List UInt8)) : Prop :=
  Ends (Shorter bs 0) p

theorem Leaves.pure (a : α) (bs : List UInt8) : Leaves bs (.ok (a, bs)) :=
  Ends.pure (Nat.le_refl bs.length)

theorem Ends.leaves
    {p : Parse (α × List UInt8)} {bs : List UInt8} {k : ℕ}
    {f : α × List UInt8 → Parse (β × List UInt8)} (h : Ends (Shorter bs k) p)
    (hf : ∀ a, Leaves a.2 (f a)) : Leaves bs (p >>= f) := by
  refine h.bind fun a ha => ⟨fun b hb => ?_, (hf a).2⟩
  have hrest : b.2.length + 0 ≤ a.2.length := (hf a).1 b hb
  have hshort : a.2.length + k ≤ bs.length := ha
  show b.2.length + 0 ≤ bs.length
  omega

theorem takeBytes_leaves (n : ℕ) (bs : List UInt8) :
    Ends (Shorter bs n) (takeBytes n bs) :=
  ⟨fun a ha => ((takeBytes_ends n bs).1 a ha).2, (takeBytes_ends n bs).2⟩

theorem parseAtom_ends (bt : BsonType) (bs : List UInt8) :
    Leaves bs (parseAtom bt bs) := by
  cases bt with
  | real | int64 | date =>
      exact (takeInt64_ends bs).leaves fun a => Leaves.pure _ a.2
  | boolean => exact (takeByte_ends bs).leaves fun a => Leaves.pure _ a.2
  | int32 => exact (takeInt32_ends bs).leaves fun a => Leaves.pure _ a.2
  | minkey | maxkey | null => exact Leaves.pure _ bs
  | objectid =>
      exact (takeBytes_leaves 12 bs).leaves fun a => Leaves.pure _ a.2
  | regex =>
      refine (takeCstring_ends bs).leaves fun a => ?_
      exact (takeCstring_ends a.2).leaves fun b => Leaves.pure _ b.2
  | timestamp =>
      refine (takeInt32_ends bs).leaves fun a => ?_
      exact (takeInt32_ends a.2).leaves fun b => Leaves.pure _ b.2
  | string =>
      refine (takeInt32_ends bs).leaves fun a => ?_
      refine Ends.ite (fun _ => Ends.raised) fun _ => ?_
      exact (takeBytes_leaves _ a.2).leaves fun b => Leaves.pure _ b.2
  | binary =>
      refine (takeInt32_ends bs).leaves fun a => ?_
      refine (takeByte_ends a.2).leaves fun b => ?_
      refine Ends.ite (fun _ => Ends.breaks) fun _ => ?_
      exact (takeBytes_leaves _ b.2).leaves fun c => Leaves.pure _ c.2
  | dbpointer | jscode | symbol | codews =>
      refine (takeInt32_ends bs).leaves fun a => ?_
      refine Ends.ite (fun _ => Ends.breaks) fun _ => ?_
      exact (takeBytes_leaves _ a.2).leaves fun b => Leaves.pure _ b.2
  | document | array => exact Ends.raised

theorem parseValue_ends
    (bt : BsonType) (bs : List UInt8)
    {dict : List UInt8 → Bool → Parse (Value × List UInt8)}
    (hdict : ∀ array, Leaves bs (dict bs array)) :
    Leaves bs (parseValue dict bt bs) := by
  have hatom := parseAtom_ends bt bs
  cases bt with
  | document => exact hdict false
  | array => exact hdict true
  | _ => exact hatom

/-- As many steps as there are bytes are enough. -/
theorem parse_ends (fuel : ℕ) :
    (∀ bs array, bs.length < fuel → Leaves bs (parseDict fuel bs array)) ∧
    (∀ bs array es, bs.length < fuel →
      Ends (fun _ => True) (parseFields fuel bs array es)) := by
  induction fuel with
  | zero =>
      exact ⟨fun bs _ h => absurd h (Nat.not_lt_zero _),
        fun bs _ _ h => absurd h (Nat.not_lt_zero _)⟩
  | succ fuel ih =>
      refine ⟨fun bs array h => ?_, fun bs array es h => ?_⟩
      · rw [parseDict]
        refine (takeInt32_ends bs).bind fun a ha => ?_
        refine Ends.ite (fun _ => Ends.breaks) fun _ => ?_
        refine (takeBytes_ends _ a.2).bind fun b hb => ?_
        refine (takeByte_ends b.2).bind fun c hc => ?_
        refine Ends.ite (fun _ => Ends.raised) fun _ => ?_
        have hfour : a.2.length + 4 ≤ bs.length := ha
        have hrest : b.2.length + _ ≤ a.2.length := hb.2
        have hlast : c.2.length + 1 ≤ b.2.length := hc
        have hblock := hb.1
        refine (ih.2 b.1 array [] (by omega)).bind fun es _ => Ends.pure ?_
        show c.2.length + 0 ≤ bs.length
        omega
      · rw [parseFields]
        refine Ends.ite (fun _ => Ends.pure trivial) fun _ => ?_
        refine (takeByte_ends bs).bind fun a ha => ?_
        refine (takeCstring_ends a.2).bind fun b hb => ?_
        have hone : a.2.length + 1 ≤ bs.length := ha
        have hkey : b.2.length + 1 ≤ a.2.length := hb
        dsimp only
        cases BsonType.ofCode a.1 with
        | none => exact Ends.raised
        | some bt =>
            have hdict : ∀ array, Leaves b.2 (parseDict fuel b.2 array) :=
              fun array => ih.1 b.2 array (by omega)
            refine (parseValue_ends bt b.2 hdict).bind fun c hc => ?_
            have hrest : c.2.length + 0 ≤ b.2.length := hc
            exact ih.2 c.2 array _ (by omega)

end Ends

/-! ## Documents -/

/-- What a document says. -/
def parse (document : List UInt8) : Parse (Value × List UInt8) :=
  parseDict (document.length + 1) document false

/-- Decoding comes to no length that does not fit. -/
def LengthsFit (document : List UInt8) : Prop := parse document ≠ breaks

/-- Whatever is read, is read inside the document, the readers stay inside their
blocks and do not grow, and decoding comes to an end. -/
structure Safe (len : ℤ) (run : Run Value) : Prop where
  inside : ∀ e ∈ run.log, Fine len e
  ends : run.result ≠ .error .exhausted

theorem bytesAt_memory
    (document : List UInt8) (outside : ℤ → UInt8) {k n : ℕ}
    (h : k + n ≤ document.length) :
    bytesAt (memory document outside) k n = (document.drop k).take n := by
  induction n generalizing k with
  | zero => rfl
  | succ n ih =>
      have hk : k < document.length := by omega
      have hnext : (k : ℤ) + 1 = (k + 1 : ℕ) := by omega
      have hbyte : memory document outside k = document[k] := by
        rw [memory, if_pos (by omega), Int.toNat_natCast,
          List.getD_eq_getElem?_getD, List.getElem?_eq_getElem hk,
          Option.getD_some]
      rw [bytesAt, hbyte, hnext, ih (by omega), List.drop_eq_getElem_cons hk,
        List.take_succ_cons]

theorem holds_memory (document : List UInt8) (outside : ℤ → UInt8) :
    Holds (memory document outside) document.length ⟨0, document.length⟩
      document where
  size := rfl
  start := Int.le_refl 0
  stop := by simp
  bytes := by
    have hbytes := bytesAt_memory document outside (k := 0)
      (Nat.le_of_eq (Nat.zero_add document.length))
    rwa [List.drop_zero, List.take_length] at hbytes

/-- The document gives its own length. -/
structure Complete (document : List UInt8) : Prop where
  four : 4 ≤ document.length
  length :
    (BitVec.ofNat 32 (LittleEndian.number (document.take 4))).toInt =
      document.length

theorem getLength_memory
    {document : List UInt8} (h : Complete document) (outside : ℤ → UInt8) :
    getLength (memory document outside) = document.length := by
  have hbytes := bytesAt_memory document outside (k := 0) (n := 4)
    (by have := h.four; omega)
  rw [List.drop_zero] at hbytes
  rw [getLength, ← h.length, ← hbytes]
  rfl

/-- Decoding a document which gives its own length reads what it says. -/
theorem ldecode_matches
    {document : List UInt8} (h : Complete document) (outside : ℤ → UInt8) :
    Matches (Fine document.length) (fun b a => b.1 = a)
      (ldecode (memory document outside)) (parse document) := by
  have hsmall : (document.length : ℤ) < 0x80000000 := by
    rw [← h.length]
    exact BitVec.toInt_lt
  rw [ldecode, parse, getLength_memory h, Int.toNat_natCast,
    ← bind_pure (parseDict _ _ _)]
  refine ((unpack_matches hsmall _).1 _ _ false
    (holds_memory document outside)).bind ?_
  rintro ⟨v, rest⟩ ⟨v', r⟩ ⟨rfl, -⟩
  exact Matches.pure rfl

/-- Whatever lies around the document, decoding it is safe if and only if it
comes to no length that does not fit. -/
theorem ldecode_safe_iff
    (document : List UInt8) (h : Complete document) (outside : ℤ → UInt8) :
    Safe document.length (ldecode (memory document outside)) ↔
      LengthsFit document := by
  have hmatches := ldecode_matches h outside
  have hends := (parse_ends (document.length + 1)).1 document false
    (Nat.lt_succ_self _)
  rw [LengthsFit, parse]
  rw [parse] at hmatches
  constructor
  · intro hsafe hbreaks
    rw [hbreaks] at hmatches
    obtain ⟨e, he, hbad⟩ := hmatches
    exact hbad (hsafe.inside e he)
  · intro hfit
    cases hparse : parseDict (document.length + 1) document false with
    | ok a =>
        rw [hparse] at hmatches
        obtain ⟨hlog, v, hresult, -⟩ := hmatches
        refine ⟨hlog, ?_⟩
        rw [hresult]
        exact fun h => by cases h
    | error s =>
        rw [hparse] at hmatches
        cases s with
        | fails e =>
            obtain ⟨hlog, hresult⟩ := hmatches
            refine ⟨hlog, ?_⟩
            rw [hresult]
            intro h
            cases h
            exact hends.2 hparse
        | breaks => exact absurd hparse hfit

/-- A document with another one in the field `a`. -/
def nested : List UInt8 :=
  [20, 0, 0, 0, 3, 97, 0, 12, 0, 0, 0, 16, 98, 0, 1, 0, 0, 0, 0, 0]

theorem ldecode_nested_safe :
    Safe 20 (ldecode (memory nested fun _ => 0)) := by
  have hcomplete : Complete nested := ⟨by decide, by decide⟩
  refine (ldecode_safe_iff nested hcomplete fun _ => 0).mpr fun h => ?_
  have hparse : parse nested =
      .ok (.table 0 [(.string [97], .table 0 [(.string [98], .integer 1)])],
        []) := rfl
  rw [hparse] at h
  cases h

/-- The code in the field `a` has the length -1. -/
def negativeCode : List UInt8 :=
  [14, 0, 0, 0, 13, 97, 0, 255, 255, 255, 255, 98, 0, 0]

/-- The document in the field `a` has the length -1000. -/
def negativeDocument : List UInt8 :=
  [12, 0, 0, 0, 3, 97, 0, 24, 252, 255, 255, 0]

/-- The first document is decoded without an error, with a reader that moves
back; for the second one a byte far in front of the document is loaded. -/
theorem negative_lengths :
    Complete negativeCode ∧
      (ldecode (memory negativeCode fun _ => 0)).result.isOk ∧
      .move ⟨11, 2⟩ ⟨10, 3⟩ ∈ (ldecode (memory negativeCode fun _ => 0)).log ∧
      ¬Safe 14 (ldecode (memory negativeCode fun _ => 0)) ∧
      Complete negativeDocument ∧
      .load (-994) 1 ∈ (ldecode (memory negativeDocument fun _ => 0)).log ∧
      ¬Safe 12 (ldecode (memory negativeDocument fun _ => 0)) := by
  have hmove : .move ⟨11, 2⟩ ⟨10, 3⟩ ∈
      (ldecode (memory negativeCode fun _ => 0)).log := by
    decide
  have hload : .load (-994) 1 ∈
      (ldecode (memory negativeDocument fun _ => 0)).log := by
    decide
  refine ⟨⟨by decide, by decide⟩, by decide, hmove, fun h => ?_,
    ⟨by decide, by decide⟩, hload, fun h => ?_⟩
  · have hstart : (11 : ℤ) ≤ 10 := (h.inside _ hmove).start
    omega
  · have hstart : (0 : ℤ) ≤ -994 := (h.inside _ hload).1
    omega

end SkynetServer.Bson
