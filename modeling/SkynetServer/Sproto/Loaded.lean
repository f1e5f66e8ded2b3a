import SkynetServer.Sproto.Schema
import SkynetServer.Support.Fallible
import Mathlib.Data.List.Pairwise

/-!
# Loaded types

The fields of a type that `sproto_create` has loaded are in ascending order of
their tags, `maxn` counts the fields and the gaps between them, and `findtag`
finds each field.
-/

namespace SkynetServer.Sproto

open Fallible LittleEndian

/-- The records that the fields can need: one for each field and one for each
gap before it. -/
def slots : ℤ → List Field → ℕ
  | _, [] => 0
  | last, f :: fs => (if (f.tag : ℤ) > last + 1 then 2 else 1) + slots f.tag fs

/-- No field has a larger tag. -/
def tagLimit : ℕ := 0x7fff

structure SprotoType.Loaded (st : SprotoType) : Prop where
  ascending : st.f.Pairwise fun f g => f.tag < g.tag
  tag_lt : ∀ f ∈ st.f, f.tag < tagLimit
  maxn : st.maxn = slots (-1) st.f
  base : st.f ≠ [] → st.base = baseOf st.f

/-! ## Importing -/

theorem toword_lt (p : List UInt8) : toword p < 2 ^ 16 := by
  have hlt := number_lt (p.take 2)
  have hle : 256 ^ (p.take 2).length ≤ 256 ^ 2 :=
    Nat.pow_le_pow_right (by omega) (List.length_take_le 2 p)
  exact Nat.lt_of_lt_of_le hlt hle

/-- The tag that was read so far is small. -/
def Draft.Small (f : Draft) : Prop := ∀ tag, f.tag = some tag → tag < tagLimit

theorem importAttribute_small
    {typeN tag value : ℕ} {content : List UInt8} {f f' : Draft}
    (hf : f.Small) (hvalue : value < 2 ^ 16)
    (h : importAttribute typeN content tag value f = some f') : f'.Small := by
  unfold importAttribute at h
  split at h
  · split at h
    · cases h
    · cases h
      exact hf
  · split at h
    · cases h
    · dsimp only at h
      split at h
      · obtain ⟨type, -, rfl⟩ := Option.map_eq_some_iff.1 h
        exact hf
      · split at h
        · cases h
          exact hf
        · cases h
          exact hf
        · split at h
          · cases h
          · cases h
            exact hf
        · cases h
      · cases h
        rintro tag ⟨⟩
        unfold tagLimit
        omega
      · cases h
        split
        · exact hf
        · exact hf
      · cases h
        exact hf
      · cases h

theorem importAttributes_small
    {typeN n tag : ℕ} {content stream : List UInt8} {f f' : Draft}
    (hf : f.Small)
    (h : importAttributes typeN content n stream tag f = some f') :
    f'.Small := by
  induction n generalizing stream tag f with
  | zero =>
      cases h
      exact hf
  | succ n ih =>
      rw [importAttributes] at h
      split at h
      · exact ih hf h
      · obtain ⟨g, hg, h⟩ := Option.bind_eq_some_iff.1 h
        exact ih (importAttribute_small hf (toword_lt stream) hg) h

theorem importField_tag_lt
    {typeN : ℕ} {stream rest : List UInt8} {f : Field}
    (h : importField typeN stream = some (f, rest)) : f.tag < tagLimit := by
  obtain ⟨fn, -, h⟩ := Option.bind_eq_some_iff.1 h
  obtain ⟨draft, hdraft, h⟩ := Option.bind_eq_some_iff.1 h
  have hsmall : draft.Small := by
    refine importAttributes_small ?_ hdraft
    rintro tag ⟨⟩
  split at h
  · rename_i htag _ _
    cases h
    exact hsmall _ htag
  · cases h

/-- The fields come in ascending order, and `maxn` counts their slots. -/
theorem importFields_spec
    {typeN n : ℕ} {stream : List UInt8} {last : ℤ} {fs : List Field}
    {gaps : ℕ} (h : importFields typeN n stream last = some (fs, gaps)) :
    n + gaps = slots last fs ∧ (∀ f ∈ fs, last < f.tag ∧ f.tag < tagLimit) ∧
      fs.Pairwise fun f g => f.tag < g.tag := by
  induction n generalizing stream last fs gaps with
  | zero =>
      cases h
      exact ⟨rfl, fun _ hf => (List.not_mem_nil hf).elim, .nil⟩
  | succ n ih =>
      obtain ⟨⟨f, rest⟩, hfield, h⟩ := Option.bind_eq_some_iff.1 h
      dsimp only at h
      split at h
      · cases h
      · rename_i hlast
        obtain ⟨⟨gs, k⟩, hfields, heq⟩ := Option.map_eq_some_iff.1 h
        obtain ⟨rfl, rfl⟩ := Prod.mk.inj heq
        obtain ⟨hslots, hmem, hpairwise⟩ := ih hfields
        refine ⟨?_, fun g hg => ?_, .cons (fun g hg => ?_) hpairwise⟩
        · rw [slots, ← hslots]
          split
          all_goals omega
        · rcases List.mem_cons.1 hg with rfl | hg
          · exact ⟨by omega, importField_tag_lt hfield⟩
          · exact ⟨by have := (hmem g hg).1; omega, (hmem g hg).2⟩
        · exact Int.ofNat_lt.1 (hmem g hg).1

theorem loaded_nil (name : List UInt8) :
    (⟨name, 0, 0, []⟩ : SprotoType).Loaded :=
  ⟨.nil, fun _ hf => (List.not_mem_nil hf).elim, rfl, fun h => absurd rfl h⟩

theorem importType_loaded
    {typeN : ℕ} {stream rest : List UInt8} {st : SprotoType}
    (h : importType typeN stream = .ok (st, rest)) : st.Loaded := by
  unfold importType at h
  dsimp only at h
  split at h
  · cases h
  · split at h
    · cases h
    · split at h
      · cases h
      · split at h
        · cases h
          exact loaded_nil _
        · obtain ⟨n, -, h⟩ := bind_ok_iff.1 h
          split at h
          · cases h
          · rename_i hfields
            cases h
            obtain ⟨hslots, hmem, hpairwise⟩ := importFields_spec hfields
            exact ⟨hpairwise, fun f hf => (hmem f hf).2, hslots, fun _ => rfl⟩

theorem importTypes_loaded
    {typeN n : ℕ} {stream : List UInt8} {types : List SprotoType}
    (h : importTypes typeN n stream = .ok types) :
    ∀ st ∈ types, st.Loaded := by
  induction n generalizing stream types with
  | zero =>
      cases h
      exact fun _ hst => (List.not_mem_nil hst).elim
  | succ n ih =>
      obtain ⟨p, htype, h⟩ := bind_ok_iff.1 h
      obtain ⟨sts, htypes, rfl⟩ := map_ok_iff.1 h
      intro st hst
      rcases List.mem_cons.1 hst with rfl | hst
      · exact importType_loaded htype
      · exact ih htypes st hst

theorem sprotoCreate_loaded
    {bundle : List UInt8} {sp : Sproto} (h : sprotoCreate bundle = .ok sp) :
    ∀ st ∈ sp.types, st.Loaded := by
  unfold sprotoCreate createFromBundle at h
  split at h
  · cases h
  · split at h
    · cases h
    · obtain ⟨arrays, -, h⟩ := bind_ok_iff.1 h
      obtain ⟨types, htypes, h⟩ := bind_ok_iff.1 h
      obtain ⟨protos, -, rfl⟩ := map_ok_iff.1 h
      exact importTypes_loaded htypes

theorem loaded_type
    {sp : Sproto} (h : ∀ st ∈ sp.types, st.Loaded) (i : ℕ) :
    (sp.type i).Loaded := by
  unfold type
  rw [List.getD_eq_getElem?_getD]
  cases hi : sp.types[i]? with
  | none => exact loaded_nil []
  | some st => exact h st (List.mem_of_getElem? hi)

/-! ## Finding a field -/

section Find

variable {fs : List Field}

theorem tag_lt_tag
    {i j : ℕ} {f g : Field} (h : fs.Pairwise fun f g => f.tag < g.tag)
    (hf : fs[i]? = some f) (hg : fs[j]? = some g) (hij : i < j) :
    f.tag < g.tag := by
  obtain ⟨hi, rfl⟩ := List.getElem?_eq_some_iff.1 hf
  obtain ⟨hj, rfl⟩ := List.getElem?_eq_some_iff.1 hg
  exact List.pairwise_iff_getElem.1 h i j hi hj hij

/-- The binary search ends at the field with the tag. -/
theorem searchTag_eq
    {fuel first last i : ℕ} {f : Field}
    (h : fs.Pairwise fun f g => f.tag < g.tag) (hf : fs[i]? = some f)
    (hfirst : first ≤ i) (hlast : i < last) (hlen : last ≤ fs.length)
    (hfuel : last - first < fuel) :
    searchTag fs f.tag fuel first last = some f := by
  induction fuel generalizing first last with
  | zero => exact absurd hfuel (Nat.not_lt_zero _)
  | succ fuel ih =>
      have hmid : (first + last) / 2 < fs.length := by omega
      obtain ⟨g, hg⟩ : ∃ g, fs[(first + last) / 2]? = some g :=
        ⟨_, List.getElem?_eq_getElem hmid⟩
      rw [searchTag, if_pos (by omega)]
      dsimp only
      rw [hg]
      dsimp only
      rcases Nat.lt_trichotomy i ((first + last) / 2) with hlt | heq | hlt
      · have htag := tag_lt_tag h hf hg hlt
        rw [if_neg (by omega), if_neg (by omega)]
        exact ih hfirst hlt (by omega) (by omega)
      · rw [← heq, hf] at hg
        cases hg
        rw [if_pos rfl]
      · have htag := tag_lt_tag h hg hf hlt
        rw [if_neg (by omega), if_pos (by omega)]
        exact ih hlt hlast hlen (by omega)

/-- The distance of two tags is at least that of the fields. -/
theorem tag_add_le
    {i k : ℕ} {f g : Field} (h : fs.Pairwise fun f g => f.tag < g.tag)
    (hf : fs[i]? = some f) (hg : fs[i + k]? = some g) :
    f.tag + k ≤ g.tag := by
  induction k generalizing g with
  | zero =>
      rw [Nat.add_zero, hf] at hg
      cases hg
      exact Nat.le_refl _
  | succ k ih =>
      have hlt : i + k < fs.length := by
        have := (List.getElem?_eq_some_iff.1 hg).1
        omega
      have hk := ih (List.getElem?_eq_getElem hlt)
      have htag := tag_lt_tag h (List.getElem?_eq_getElem hlt) hg (by omega)
      omega

/-- Without gaps the tag of a field is its index after the first tag. -/
theorem tag_eq_of_base
    {i : ℕ} {f : Field} (h : fs.Pairwise fun f g => f.tag < g.tag)
    (hbase : 0 ≤ baseOf fs) (hf : fs[i]? = some f) :
    (f.tag : ℤ) = baseOf fs + i := by
  have hi := (List.getElem?_eq_some_iff.1 hf).1
  obtain ⟨a, ha⟩ : ∃ a, fs[0]? = some a :=
    ⟨_, List.getElem?_eq_getElem (by omega)⟩
  obtain ⟨b, hb⟩ : ∃ b, fs[fs.length - 1]? = some b :=
    ⟨_, List.getElem?_eq_getElem (by omega)⟩
  have hfirst : a.tag + i ≤ f.tag :=
    tag_add_le h ha (by rw [Nat.zero_add]; exact hf)
  have hlast : f.tag + (fs.length - 1 - i) ≤ b.tag := by
    refine tag_add_le h hf ?_
    rw [← hb]
    congr 1
    omega
  have heq : baseOf fs =
      if (b.tag : ℤ) - a.tag + 1 ≠ fs.length then -1 else (a.tag : ℤ) := by
    unfold baseOf
    rw [List.head?_eq_getElem?, List.getLast?_eq_getElem?, ha, hb]
  rw [heq] at hbase ⊢
  split at hbase
  · omega
  · rename_i hgap
    rw [if_neg hgap]
    omega

theorem findtag_eq
    {st : SprotoType} {f : Field} (h : st.Loaded) (hf : f ∈ st.f) :
    findtag st f.tag = some f := by
  obtain ⟨i, hi⟩ := List.getElem?_of_mem hf
  have hlen := (List.getElem?_eq_some_iff.1 hi).1
  have hbase := h.base (List.ne_nil_of_mem hf)
  unfold findtag
  split
  · rename_i hpos
    have htag := tag_eq_of_base h.ascending (hbase ▸ hpos) hi
    rw [← hbase] at htag
    dsimp only
    have hindex : (f.tag : ℤ) - st.base = i := by omega
    rw [hindex, if_neg (by omega), Int.toNat_natCast, hi]
  · exact searchTag_eq h.ascending hi (Nat.zero_le i) hlen (Nat.le_refl _)
      (by omega)

end Find

end SkynetServer.Sproto
