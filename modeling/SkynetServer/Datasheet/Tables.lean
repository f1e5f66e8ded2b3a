import SkynetServer.Datasheet.Dump
import Mathlib.Data.List.TakeWhile

/-!
# A table and its sheet

When the table that `undump` has built is the one that was dumped: the elements
of `ipairs` come back at their indices, and the other values under their keys up
to the first zero.
-/

namespace SkynetServer.Datasheet

open Seri (Atom Value Entries Same Plain)

/-- The integers that are dumped as integers. -/
def IsInt (x : BitVec 64) : Prop := -0x80000000 ≤ x.toInt ∧ x.toInt < 0x80000000

/-- Values that a document keeps: integers of 32 bits, other numbers that are
floats of 32 bits, and strings without zeros. -/
inductive Exact (f : Floats) : Value → Prop
  | integer (x : BitVec 64) : IsInt x → Exact f (.atom (.integer x))
  | real (bits : BitVec 64) :
      (∀ x, Seri.floatToInteger bits = some x → ¬ IsInt x) →
      f.double (f.single bits) = bits → Exact f (.atom (.real bits))
  | boolean (b : Bool) : Exact f (.atom (.boolean b))
  | string (str : List UInt8) : 0 ∉ str → Exact f (.atom (.string str))
  | table (border : ℕ) (t : Entries) :
      (∀ str v, (.atom (.string str), v) ∈ t → 0 ∉ str) →
      (∀ e ∈ t, Exact f e.2) → Exact f (.table border t)

/-- The sheet has a value, and it is the dumped one just if that is exact. -/
structure Shown (f : Floats) (v : Value) (x : Sheet) : Prop where
  value : x.value ≠ .atom .nil
  same : Same v x.value ↔ Exact f v

/-- The entry of a string key. -/
def fieldOf (e : Value × Value) : Option (List UInt8 × Value) :=
  match e.1 with
  | .atom (.string str) => some (str, e.2)
  | _ => none

/-- The fields of a table. -/
def fieldsOf (t : Entries) : List (List UInt8 × Value) := t.filterMap fieldOf

/-- The string up to its first zero. -/
def cString (str : List UInt8) : List UInt8 := str.takeWhile (· ≠ 0)

section Parts

variable {t : Entries} {v : Value} {x : Sheet} {i j : ℕ}

theorem getElem?_ipairsFrom
    {fuel : ℕ} (h : (ipairsFrom t fuel i)[j]? = some v) :
    Value.rawgeti t (i + j) = v ∧ v ≠ .atom .nil := by
  induction fuel generalizing i j with
  | zero => cases h
  | succ fuel ih =>
      unfold ipairsFrom at h
      split at h
      · cases h
      · rename_i hne
        cases j with
        | zero =>
            cases h
            exact ⟨rfl, hne⟩
        | succ j =>
            have hrest := ih h
            rw [Nat.add_assoc, Nat.add_comm 1 j] at hrest
            exact hrest

theorem mem_fieldsOf {str : List UInt8} :
    (str, v) ∈ fieldsOf t ↔ (.atom (.string str), v) ∈ t := by
  rw [fieldsOf, List.mem_filterMap]
  constructor
  · rintro ⟨⟨key, w⟩, he, h⟩
    unfold fieldOf at h
    dsimp only at h
    split at h
    · cases h
      exact he
    · cases h
  · intro h
    exact ⟨_, h, rfl⟩

theorem mem_arrayPairs {xs : List Sheet} {p : Atom × Value} :
    p ∈ arrayPairs i xs ↔ ∃ j x, xs[j]? = some x ∧
      p = (.integer (.ofNat 64 (i + j)), x.value) := by
  induction xs generalizing i with
  | nil =>
      constructor
      · intro h
        cases h
      · rintro ⟨j, x, hx, -⟩
        cases hx
  | cons y xs ih =>
      rw [arrayPairs, List.mem_cons, ih]
      constructor
      · rintro (rfl | ⟨j, x, hx, rfl⟩)
        · exact ⟨0, y, rfl, rfl⟩
        · refine ⟨j + 1, x, hx, ?_⟩
          rw [Nat.add_assoc, Nat.add_comm 1 j]
      · rintro ⟨j, x, hx, rfl⟩
        cases j with
        | zero =>
            cases hx
            exact .inl rfl
        | succ j =>
            refine .inr ⟨j, x, hx, ?_⟩
            rw [Nat.add_assoc, Nat.add_comm 1 j]

theorem mem_fieldPairs
    {ps : List (List UInt8 × Sheet)} {p : Atom × Value} :
    p ∈ fieldPairs ps ↔ ∃ q ∈ ps, p = (.string q.1, q.2.value) := by
  induction ps with
  | nil =>
      constructor
      · intro h
        cases h
      · rintro ⟨q, hq, -⟩
        cases hq
  | cons q ps ih =>
      obtain ⟨key, s⟩ := q
      rw [fieldPairs, List.mem_cons, ih]
      constructor
      · rintro (rfl | ⟨q, hq, rfl⟩)
        · exact ⟨_, List.mem_cons_self, rfl⟩
        · exact ⟨q, List.mem_cons_of_mem _ hq, rfl⟩
      · rintro ⟨q, hq, rfl⟩
        rcases List.mem_cons.1 hq with rfl | hq
        · exact .inl rfl
        · exact .inr ⟨q, hq, rfl⟩

end Parts

theorem exists_getElem?
    {α β : Type*} {R : α → β → Prop} {as : List α} {bs : List β} {j : ℕ} {a : α}
    (h : List.Forall₂ R as bs) (hj : as[j]? = some a) :
    ∃ b, bs[j]? = some b ∧ R a b := by
  induction h generalizing j with
  | nil => cases hj
  | cons hhead _ ih =>
      cases j with
      | zero =>
          cases hj
          exact ⟨_, rfl, hhead⟩
      | succ j => exact ih hj

theorem exists_getElem?_right
    {α β : Type*} {R : α → β → Prop} {as : List α} {bs : List β} {j : ℕ} {b : β}
    (h : List.Forall₂ R as bs) (hj : bs[j]? = some b) :
    ∃ a, as[j]? = some a ∧ R a b :=
  exists_getElem? (List.Forall₂.flip (R := flip R) h) hj

section Table

variable {f : Floats} {t : Entries} {border index : ℕ} {xs : List Sheet}
  {ps : List (List UInt8 × Sheet)}

/-- What the loops of `dump` have checked of the keys, and the sheets of the
values. -/
structure Parts (f : Floats) (t : Entries) (xs : List Sheet)
    (ps : List (List UInt8 × Sheet)) : Prop where
  plain : Plain t
  key : ∀ e ∈ t, (∃ str, e.1 = .atom (.string str)) ∨
    ∃ ik : BitVec 64, e.1 = .atom (.integer ik) ∧ 0 < ik.toInt ∧
      ik.toInt ≤ (ipairs t).length
  size : (ipairs t).length < 0x80000000
  array : List.Forall₂ (Shown f) (ipairs t) xs
  fields : List.Forall₂ (fun e p => p.1 = cString e.1 ∧ Shown f e.2 p.2)
    (fieldsOf t) ps

/-- The pairs that are set in the new table. -/
def pairsOf (xs : List Sheet) (ps : List (List UInt8 × Sheet)) :
    List (Atom × Value) :=
  arrayPairs 1 xs ++ fieldPairs ps

theorem Parts.element
    (h : Parts f t xs ps) {ik : BitVec 64} {v : Value}
    (he : (.atom (.integer ik), v) ∈ t) :
    ∃ j x, xs[j]? = some x ∧ ik = .ofNat 64 (1 + j) ∧ Shown f v x := by
  have hsize := h.size
  rcases h.key _ he with ⟨str, hstr⟩ | ⟨ik', hik, hpos, hle⟩
  · cases hstr
  · cases hik
    have hnat : ik.toInt = ik.toNat := by
      rw [BitVec.toInt_eq_toNat_cond]
      split
      · rfl
      · rw [BitVec.toInt_eq_toNat_cond] at hpos
        have := ik.isLt
        omega
    have hj : ik.toNat - 1 < (ipairs t).length := by omega
    have hv := List.getElem?_eq_getElem hj
    have hik : ik = .ofNat 64 (1 + (ik.toNat - 1)) := by
      rw [Nat.add_sub_cancel' (by omega), BitVec.ofNat_toNat,
        BitVec.setWidth_eq]
    obtain ⟨hget, -⟩ := getElem?_ipairsFrom hv
    rw [Value.rawgeti, ← hik, h.plain.rawget_of_mem he] at hget
    obtain ⟨x, hx, hshown⟩ := exists_getElem? h.array hv
    rw [← hget] at hshown
    exact ⟨_, x, hx, hik, hshown⟩

theorem Parts.pairs
    (h : Parts f t xs ps) {p : Atom × Value} (hp : p ∈ pairsOf xs ps) :
    ∃ k v x, (.atom k, v) ∈ t ∧ Shown f v x ∧ p.2 = x.value ∧
      ((∃ ik, k = .integer ik ∧ p.1 = k) ∨
        ∃ str, k = .string str ∧ p.1 = .string (cString str)) := by
  rcases List.mem_append.1 hp with hp | hp
  · obtain ⟨j, x, hx, rfl⟩ := mem_arrayPairs.1 hp
    obtain ⟨v, hv, hshown⟩ := exists_getElem?_right h.array hx
    obtain ⟨hget, hne⟩ := getElem?_ipairsFrom hv
    refine ⟨_, v, x, ?_, hshown, rfl, .inl ⟨_, rfl, rfl⟩⟩
    rw [← hget] at hne ⊢
    exact Seri.mem_of_rawget hne
  · obtain ⟨q, hq, rfl⟩ := mem_fieldPairs.1 hp
    obtain ⟨m, hm⟩ := List.mem_iff_getElem?.1 hq
    obtain ⟨⟨str, v⟩, he, hkey, hshown⟩ := exists_getElem?_right h.fields hm
    refine ⟨.string str, v, q.2, mem_fieldsOf.1 (List.mem_of_getElem? he),
      hshown, rfl, .inr ⟨str, rfl, ?_⟩⟩
    rw [hkey]

theorem Parts.value_ne (h : Parts f t xs ps) :
    ∀ p ∈ pairsOf xs ps, p.2 ≠ .atom .nil := by
  intro p hp
  obtain ⟨k, v, x, -, hshown, hvalue, -⟩ := h.pairs hp
  rw [hvalue]
  exact hshown.value

theorem Parts.plain_build (h : Parts f t xs ps) :
    Plain (Seri.build [] (pairsOf xs ps)) := by
  refine Seri.plain_build Seri.plain_nil fun p hp => ⟨?_, h.value_ne p hp⟩
  obtain ⟨k, v, x, -, -, -, ⟨ik, rfl, hk⟩ | ⟨str, rfl, hk⟩⟩ := h.pairs hp
  · rw [hk]
    rfl
  · rw [hk]
    rfl

end Table

end SkynetServer.Datasheet
