import SkynetServer.Datasheet.Tables
import SkynetServer.Support.Fallible
import SkynetServer.Support.Integers
import SkynetServer.Support.Memory
import Mathlib.Algebra.BigOperators.Group.List.Basic
import Mathlib.Algebra.Order.Group.Nat

/-!
# The layout of a document

What `string.unpack` reads at a place, and where `dump` puts the tables and the
strings.
-/

namespace SkynetServer.Datasheet

open Memory

/-! ## Numbers and strings at a place -/

section Places

variable {v : List UInt8} {pos limit size : ℕ}

/-- A string up to its first zero. -/
theorem unpackZ_of_at
    {str : List UInt8} (h : At v pos (str ++ [0]))
    (hlength : str.length < 0x80000000) :
    unpackZ v pos = .ok (cString str) := by
  have hle := h.le
  obtain ⟨ws, zs, rfl, rfl⟩ := h
  have htake : ((ws ++ (str ++ [0] ++ zs)).drop ws.length).takeWhile
      (· ≠ 0) = cString str := by
    rw [List.drop_left, List.append_assoc, List.singleton_append,
      List.takeWhile_append]
    split
    · rename_i hall
      rw [List.takeWhile_cons_of_neg (by simp), List.append_nil]
      exact (List.takeWhile_prefix _).eq_of_length hall |>.symm
    · rfl
  have hsize : (cString str).length < 0x80000000 :=
    lt_of_le_of_lt (List.takeWhile_prefix _).length_le hlength
  have hint : (BitVec.ofNat 32 (cString str).length).toInt =
      (cString str).length := Integers.toInt_ofNat_of_lt (by omega)
  rw [unpackZ, if_neg (by omega)]
  dsimp only
  rw [htake, hint, if_neg (by omega), Int.toNat_natCast, List.take_length]

end Places

/-! ## What the loops keep -/

namespace Doc

/-- Each string starts where those before it end. -/
def Offsets (doc : Doc) : Prop :=
  (∀ (k : ℕ) (s : List UInt8 × ℕ), doc.strings[k]? = some s →
    s.2 = ((doc.strings.take k).flatMap fun p => p.1 ++ [0]).length) ∧
  doc.offset = (doc.strings.flatMap fun p => p.1 ++ [0]).length

/-- Nothing that is written is lost. -/
structure Grows (doc doc' : Doc) : Prop where
  length : doc.table.length ≤ doc'.table.length
  table : ∀ i < doc.table.length, doc'.table[i]? = doc.table[i]?
  strings : doc.strings <+: doc'.strings
  offsets : doc.Offsets → doc'.Offsets

/-- The strings and the tables from the index `lo` on are also in another
document. -/
structure Within (lo : ℕ) (doc doc' : Doc) : Prop where
  table : ∀ i, lo ≤ i → i < doc.table.length → doc'.table[i]? = doc.table[i]?
  strings : doc.strings <+: doc'.strings

variable {doc doc' doc'' : Doc} {lo : ℕ}

/-- Only strings are added. -/
theorem Grows.of_table
    (htable : doc'.table = doc.table) (hstrings : doc.strings <+: doc'.strings)
    (hoffsets : doc.Offsets → doc'.Offsets) : Grows doc doc' := by
  refine ⟨?_, fun i _ => ?_, hstrings, hoffsets⟩
  · rw [htable]
  · rw [htable]

theorem Grows.refl (doc : Doc) : Grows doc doc :=
  .of_table rfl List.prefix_rfl id

theorem Grows.trans (h : Grows doc doc') (h' : Grows doc' doc'') :
    Grows doc doc'' := by
  refine ⟨h.length.trans h'.length, fun i hi => ?_,
    h.strings.trans h'.strings, h'.offsets ∘ h.offsets⟩
  rw [h'.table i (lt_of_lt_of_le hi h.length), h.table i hi]

theorem Within.refl (lo : ℕ) (doc : Doc) : Within lo doc doc :=
  ⟨fun _ _ _ => rfl, List.prefix_rfl⟩

theorem Within.mono {lo' : ℕ} (h : Within lo doc doc') (hlo : lo ≤ lo') :
    Within lo' doc doc' :=
  ⟨fun i hi => h.table i (hlo.trans hi), h.strings⟩

end Doc

/-! ## Where things stand in the bytes -/

/-- The bytes of a document with the positions of its tables and strings. -/
structure Laid (v : List UInt8) (stringtbl n : ℕ) (index : List ℕ)
    (doc : Doc) : Prop where
  table : ∀ (i : ℕ) (bs : List UInt8), doc.table[i]? = some bs →
    ∃ offset, index[i]? = some offset ∧ At v (offset + (4 + 4 + 4 * n)) bs
  string : ∀ s ∈ doc.strings, At v (stringtbl + s.2) (s.1 ++ [0])

variable {bs : List UInt8}

section Document

variable {stringtbl : ℕ} {index : List ℕ} {tables : List (List UInt8)}
  {strings : List UInt8}

end Document

end SkynetServer.Datasheet
