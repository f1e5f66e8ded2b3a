import SkynetServer.Seri.Value
import Mathlib.Data.List.Perm.Basic
import Mathlib.Data.List.Nodup

/-!
# Lua tables

Tables with one entry for each key, and when two of them are the same.
-/

namespace SkynetServer.Seri

/-- The values are the same: their tables have the same values at the same
keys. -/
inductive Same : Value → Value → Prop
  | atom (a : Atom) : Same (.atom a) (.atom a)
  | table (border border' : ℕ) (es fs es' : Entries) :
      List.Forall₂ (fun e f => Same e.1 f.1) es fs →
      List.Forall₂ (fun e f => Same e.2 f.2) es fs → fs.Perm es' →
        Same (.table border es) (.table border' es')

theorem Same.eq_atom {a : Atom} {v : Value} (h : Same (.atom a) v) :
    v = .atom a := by
  cases h
  rfl

theorem Same.atom_iff {a : Atom} {v w : Value} (h : Same v w) :
    w = .atom a ↔ v = .atom a := by
  cases h with
  | atom b => exact Iff.rfl
  | table => exact ⟨fun h => (by cases h), fun h => (by cases h)⟩

theorem integer_inj {i j : ℕ} (hi : i < 2 ^ 64) (hj : j < 2 ^ 64)
    (h : BitVec.ofNat 64 i = BitVec.ofNat 64 j) : i = j := by
  have hnat := congrArg BitVec.toNat h
  rw [BitVec.toNat_ofNat, BitVec.toNat_ofNat, Nat.mod_eq_of_lt (by omega),
    Nat.mod_eq_of_lt (by omega)] at hnat
  exact hnat

section Entries

variable {es : Entries} {k : Atom} {v : Value}

theorem isKey_iff {k : Atom} {e : Value × Value} :
    Value.isKey k e = true ↔ e.1 = .atom k := by
  obtain ⟨key, v⟩ := e
  cases key with
  | atom a =>
      rw [Value.isKey, decide_eq_true_iff, Value.atom.injEq]
  | table => exact ⟨fun h => (by cases h), fun h => (by cases h)⟩

/-- Entries with different keys. -/
def Distinct (es : Entries) : Prop :=
  es.Pairwise fun e e' =>
    ∀ k, Value.isKey k e = true → Value.isKey k e' = false

/-- The entry of a key is the one that is found. -/
theorem find_of_mem
    {e : Value × Value} {k : Atom} (hdistinct : Distinct es) (he : e ∈ es)
    (hk : Value.isKey k e = true) : es.find? (Value.isKey k) = some e := by
  induction es with
  | nil => cases he
  | cons f es ih =>
      obtain ⟨hf, hes⟩ := List.pairwise_cons.1 hdistinct
      rcases List.mem_cons.1 he with rfl | he
      · rw [List.find?_cons_of_pos hk]
      · have hfk : ¬ Value.isKey k f = true := by
          intro hfk
          rw [hf e he k hfk] at hk
          cases hk
        rw [List.find?_cons_of_neg hfk]
        exact ih hes he

theorem setKey_nil (hfresh : ∀ e ∈ es, Value.isKey k e = false) :
    Value.setKey es k (.atom .nil) = es := by
  rw [Value.setKey, List.filter_eq_self]
  intro e he
  rw [hfresh e he]
  rfl

theorem setKey_append
    (hv : v ≠ .atom .nil) (hfresh : ∀ e ∈ es, Value.isKey k e = false) :
    Value.setKey es k v = es ++ [(.atom k, v)] := by
  have hany : es.any (Value.isKey k) = false := by
    rw [List.any_eq_false]
    intro e he
    rw [hfresh e he]
    exact Bool.false_ne_true
  unfold Value.setKey
  split
  · exact absurd rfl hv
  · rw [hany]
    rfl

end Entries

/-! ## Tables without tables as keys -/

/-- One entry for each key, no nil, and no table as a key. -/
structure Plain (es : Entries) : Prop where
  distinct : Distinct es
  key : ∀ e ∈ es, ∃ k : Atom, e.1 = .atom k ∧ k.key = some k
  value : ∀ e ∈ es, e.2 ≠ .atom .nil

section Plain

variable {es es' : Entries} {k : Atom} {v : Value}

theorem plain_nil : Plain [] :=
  ⟨.nil, fun _ he => (List.not_mem_nil he).elim,
    fun _ he => (List.not_mem_nil he).elim⟩

theorem rawget_nil (k : Atom) : Value.rawget [] k = .atom .nil := rfl

theorem rawget_eq_find :
    Value.rawget es k = ((es.find? (Value.isKey k)).map (·.2)).getD
      (.atom .nil) := by
  unfold Value.rawget
  cases es.find? (Value.isKey k) with
  | none | some e => rfl

theorem Plain.rawget_of_mem (h : Plain es) (he : (.atom k, v) ∈ es) :
    Value.rawget es k = v := by
  rw [rawget_eq_find, find_of_mem h.distinct he (isKey_iff.2 rfl)]
  rfl

theorem mem_of_rawget (hne : Value.rawget es k ≠ .atom .nil) :
    (.atom k, Value.rawget es k) ∈ es := by
  rw [rawget_eq_find] at hne ⊢
  cases hfind : es.find? (Value.isKey k) with
  | none =>
      rw [hfind] at hne
      exact absurd rfl hne
  | some e =>
      rw [Option.map_some, Option.getD_some,
        ← isKey_iff.1 (List.find?_some hfind)]
      exact List.mem_of_find?_eq_some hfind

theorem setKey_eq (hv : v ≠ .atom .nil) :
    Value.setKey es k v =
      if es.any (Value.isKey k) then
        es.map fun e => if Value.isKey k e then (e.1, v) else e
      else es ++ [(.atom k, v)] := by
  unfold Value.setKey
  split
  · exact absurd rfl hv
  · rfl

/-- Setting the value of a key changes no key. -/
theorem isKey_update (k' : Atom) (e : Value × Value) :
    Value.isKey k' (if Value.isKey k e then (e.1, v) else e) =
      Value.isKey k' e := by
  split
  · rw [Bool.eq_iff_iff, isKey_iff, isKey_iff]
  · rfl

theorem Plain.setKey
    (h : Plain es) (hk : k.key = some k) (hv : v ≠ .atom .nil) :
    Plain (Value.setKey es k v) := by
  rw [setKey_eq hv]
  split
  · refine ⟨?_, fun e he => ?_, fun e he => ?_⟩
    · refine List.pairwise_map.2 (h.distinct.imp ?_)
      intro e e' hkeys k'
      rw [isKey_update, isKey_update]
      exact hkeys k'
    · obtain ⟨e, hmem, rfl⟩ := List.mem_map.1 he
      split
      · exact h.key e hmem
      · exact h.key e hmem
    · obtain ⟨e, hmem, rfl⟩ := List.mem_map.1 he
      split
      · exact hv
      · exact h.value e hmem
  · rename_i hany
    rw [Bool.not_eq_true, List.any_eq_false] at hany
    refine ⟨?_, fun e he => ?_, fun e he => ?_⟩
    · refine List.pairwise_append.2 ⟨h.distinct, List.pairwise_singleton _ _,
        fun e he e' he' k' hk' => ?_⟩
      cases List.mem_singleton.1 he'
      rw [Bool.eq_false_iff]
      intro hkey
      cases isKey_iff.1 hkey
      exact hany e he hk'
    · rcases List.mem_append.1 he with he | he
      · exact h.key e he
      · cases List.mem_singleton.1 he
        exact ⟨k, rfl, hk⟩
    · rcases List.mem_append.1 he with he | he
      · exact h.value e he
      · cases List.mem_singleton.1 he
        exact hv

theorem rawget_setKey (hv : v ≠ .atom .nil) (k' : Atom) :
    Value.rawget (Value.setKey es k v) k' =
      if k' = k then v else Value.rawget es k' := by
  rw [setKey_eq hv, rawget_eq_find, rawget_eq_find]
  split
  · rename_i hany
    have hfind : (es.map fun e => if Value.isKey k e then (e.1, v) else
        e).find? (Value.isKey k') = (es.find? (Value.isKey k')).map fun e =>
        if Value.isKey k e then (e.1, v) else e := by
      rw [List.find?_map]
      congr 2
      funext e
      exact isKey_update k' e
    rw [hfind]
    cases hold : es.find? (Value.isKey k') with
    | none =>
        split
        · rename_i heq
          subst heq
          obtain ⟨e, he, hkey⟩ := List.any_eq_true.1 hany
          exact absurd hkey (List.find?_eq_none.1 hold e he)
        · rfl
    | some e =>
        have hkey := isKey_iff.1 (List.find?_some hold)
        have hiff : Value.isKey k e = true ↔ k' = k := by
          rw [isKey_iff, hkey, Value.atom.injEq]
        rw [Option.map_some, Option.map_some, Option.getD_some,
          Option.map_some, Option.getD_some]
        split
        · rename_i htrue
          rw [if_pos (hiff.1 htrue)]
        · rename_i hfalse
          rw [if_neg fun h => hfalse (hiff.2 h)]
  · rename_i hany
    rw [Bool.not_eq_true, List.any_eq_false] at hany
    rw [List.find?_append]
    split
    · rename_i heq
      subst heq
      rw [List.find?_eq_none.2 fun e he => hany e he, Option.none_or,
        List.find?_cons_of_pos (isKey_iff.2 rfl)]
      rfl
    · rename_i hne
      have hnew : ¬ Value.isKey k' (.atom k, v) = true := by
        intro hkey
        cases isKey_iff.1 hkey
        exact hne rfl
      rw [List.find?_cons_of_neg hnew, List.find?_nil, Option.or_none]

theorem Plain.nodup (h : Plain es) : es.Nodup := by
  refine h.distinct.imp_of_mem ?_
  rintro e e' he - hkeys rfl
  obtain ⟨k, hk, -⟩ := h.key e he
  have hkey := isKey_iff.2 hk
  rw [hkeys k hkey] at hkey
  cases hkey

/-- Tables with the same values at the same keys are the same. -/
theorem Plain.same
    (h : Plain es) (h' : Plain es')
    (hsame : ∀ k, Same (Value.rawget es k) (Value.rawget es' k))
    (border border' : ℕ) : Same (.table border es) (.table border' es') := by
  have hkey : ∀ e : Value × Value, ∃ k : Atom, e ∈ es → e.1 = .atom k := by
    intro e
    by_cases he : e ∈ es
    · obtain ⟨k, hk, -⟩ := h.key e he
      exact ⟨k, fun _ => hk⟩
    · exact ⟨.nil, fun he' => absurd he' he⟩
  choose key hkey using hkey
  have hvalue : ∀ e ∈ es, Value.rawget es (key e) = e.2 := by
    intro e he
    refine h.rawget_of_mem ?_
    rw [← hkey e he]
    exact he
  refine .table border border' es
    (es.map fun e => (e.1, Value.rawget es' (key e))) es' ?_ ?_ ?_
  · rw [List.forall₂_map_right_iff]
    refine List.forall₂_same.2 fun e he => ?_
    dsimp only
    rw [hkey e he]
    exact .atom _
  · rw [List.forall₂_map_right_iff]
    refine List.forall₂_same.2 fun e he => ?_
    dsimp only
    rw [← hvalue e he]
    exact hsame (key e)
  · have hnodup : (es.map fun e => (e.1, Value.rawget es' (key e))).Nodup := by
      refine List.pairwise_map.2 (h.distinct.imp_of_mem ?_)
      intro e e' he he' hkeys heq
      have hfst := (Prod.ext_iff.1 heq).1
      dsimp only at hfst
      have hk' := hkeys _ (isKey_iff.2 (hkey e he))
      rw [Bool.eq_false_iff, ne_eq, isKey_iff] at hk'
      exact hk' (hfst.symm.trans (hkey e he))
    refine (List.perm_ext_iff_of_nodup hnodup h'.nodup).2 fun e' => ?_
    constructor
    · intro he'
      obtain ⟨e, he, rfl⟩ := List.mem_map.1 he'
      rw [hkey e he]
      refine mem_of_rawget fun hnil => h.value e he ?_
      rw [← hvalue e he]
      exact (hsame (key e)).atom_iff.1 hnil
    · intro he'
      obtain ⟨k, hk, -⟩ := h'.key e' he'
      obtain ⟨key', v⟩ := e'
      dsimp only at hk
      subst hk
      have hv := h'.rawget_of_mem he'
      have hne : Value.rawget es k ≠ .atom .nil := by
        intro hnil
        refine h'.value _ he' ?_
        rw [← hv]
        exact (hsame k).atom_iff.2 hnil
      refine List.mem_map.2 ⟨_, mem_of_rawget hne, ?_⟩
      have hk := hkey _ (mem_of_rawget hne)
      dsimp only at hk ⊢
      rw [← Value.atom.inj hk, hv]

theorem setKey_setKey {w : Value} (hv : v ≠ .atom .nil) (hw : w ≠ .atom .nil) :
    Value.setKey (Value.setKey es k v) k w = Value.setKey es k w := by
  rw [setKey_eq hw, setKey_eq hw, setKey_eq hv]
  by_cases hany : es.any (Value.isKey k) = true
  · have hany' : (es.map fun e => if Value.isKey k e then (e.1, v) else
        e).any (Value.isKey k) = true := by
      rw [List.any_map, List.any_eq_true]
      obtain ⟨e, he, hkey⟩ := List.any_eq_true.1 hany
      refine ⟨e, he, ?_⟩
      rw [Function.comp_apply, isKey_update]
      exact hkey
    rw [if_pos hany, if_pos hany, if_pos hany', List.map_map]
    congr 1
    funext e
    rw [Function.comp_apply, isKey_update]
    split
    · rfl
    · rfl
  · have hkey : Value.isKey k (.atom k, v) = true := isKey_iff.2 rfl
    have hany' : (es ++ [(Value.atom k, v)]).any (Value.isKey k) = true := by
      rw [List.any_append, List.any_cons, hkey, Bool.true_or, Bool.or_true]
    have hold : (es.map fun e => if Value.isKey k e then (e.1, w) else e) =
        es := by
      rw [Bool.not_eq_true, List.any_eq_false] at hany
      refine (List.map_congr_left fun e he => ?_).trans (List.map_id es)
      exact if_neg (hany e he)
    rw [if_neg hany, if_neg hany, if_pos hany', List.map_append,
      List.map_cons, List.map_nil, if_pos hkey, hold]

/-- The entries after the values of some keys are set. -/
def build (es : Entries) (ps : List (Atom × Value)) : Entries :=
  ps.foldl (fun es p => Value.setKey es p.1 p.2) es

variable {ps : List (Atom × Value)}

theorem plain_build
    (h : Plain es)
    (hps : ∀ p ∈ ps, p.1.key = some p.1 ∧ p.2 ≠ .atom .nil) :
    Plain (build es ps) := by
  induction ps generalizing es with
  | nil => exact h
  | cons p ps ih =>
      obtain ⟨hk, hv⟩ := hps p List.mem_cons_self
      exact ih (h.setKey hk hv) fun q hq => hps q (List.mem_cons_of_mem _ hq)

/-- A value is that of the key, or it was set. -/
theorem rawget_build
    (hps : ∀ p ∈ ps, p.2 ≠ .atom .nil) (k : Atom) :
    (Value.rawget (build es ps) k = Value.rawget es k ∧ ∀ v, (k, v) ∉ ps) ∨
      (k, Value.rawget (build es ps) k) ∈ ps := by
  induction ps generalizing es with
  | nil => exact .inl ⟨rfl, fun v hv => List.not_mem_nil hv⟩
  | cons p ps ih =>
      obtain ⟨k', v'⟩ := p
      have hv' : v' ≠ .atom .nil := hps _ List.mem_cons_self
      rcases @ih (Value.setKey es k' v') fun q hq =>
        hps q (List.mem_cons_of_mem _ hq) with ⟨hold, hnot⟩ | hmem
      · rw [rawget_setKey hv'] at hold
        by_cases hk : k = k'
        · rw [if_pos hk] at hold
          refine .inr ?_
          have hvalue : Value.rawget (build es ((k', v') :: ps)) k = v' := hold
          rw [hvalue, hk]
          exact List.mem_cons_self
        · rw [if_neg hk] at hold
          refine .inl ⟨hold, fun v hv => ?_⟩
          rcases List.mem_cons.1 hv with heq | hv
          · exact hk (Prod.ext_iff.1 heq).1
          · exact hnot v hv
      · exact .inr (List.mem_cons_of_mem _ hmem)

/-- A table is the same as the one that is built from its values, whatever is
set twice. -/
theorem Plain.same_build
    (h : Plain es)
    (hps : ∀ p ∈ ps, Value.rawget es p.1 ≠ .atom .nil ∧
      Same (Value.rawget es p.1) p.2)
    (hall : ∀ k, Value.rawget es k ≠ .atom .nil → ∃ v, (k, v) ∈ ps)
    (border border' : ℕ) :
    Same (.table border es) (.table border' (build [] ps)) := by
  have hvalue : ∀ p ∈ ps, p.2 ≠ .atom .nil := fun p hp hnil =>
    (hps p hp).1 ((hps p hp).2.atom_iff.1 hnil)
  refine h.same (plain_build plain_nil fun p hp => ⟨?_, hvalue p hp⟩) ?_ _ _
  · obtain ⟨k, hk, hkey⟩ := h.key _ (mem_of_rawget (hps p hp).1)
    cases Value.atom.inj hk
    exact hkey
  · intro k
    rcases @rawget_build [] ps hvalue k with ⟨hnew, hnot⟩ | hmem
    · rw [hnew]
      by_cases hnil : Value.rawget es k = .atom .nil
      · rw [hnil]
        exact .atom _
      · obtain ⟨v, hv⟩ := hall k hnil
        exact absurd hv (hnot v)
    · exact (hps _ hmem).2

end Plain

end SkynetServer.Seri
