import SkynetServer.Bson.Encode

/-!
# Equal tables

Two tables are equal if the same is found in them under all keys, at every
depth.  The order of the entries and the border do not matter.
-/

namespace SkynetServer.Bson

/-- What a value is, apart from the entries of a table. -/
inductive Leaf where
  | integer (i : BitVec 64)
  | real (bits : BitVec 64)
  | boolean (b : Bool)
  | string (bytes : List UInt8)
  | table
  deriving DecidableEq, Repr

def leaf : Value → Leaf
  | .integer i => .integer i
  | .real bits => .real bits
  | .boolean b => .boolean b
  | .string bytes => .string bytes
  | .table _ _ => .table

/-- What is found under keys, one after the other. -/
def find : List Key → Value → Option Leaf
  | [], v => some (leaf v)
  | k :: ks, .table _ es =>
    match rawget es k with
    | some v => find ks v
    | none => none
  | _ :: _, _ => none

/-- The same is found in both values. -/
def Equal (v w : Value) : Prop := ∀ ks, find ks v = find ks w

/-- A value inside a value, or the value itself. -/
inductive Sub : Value → Value → Prop
  | refl (v : Value) : Sub v v
  | entry {border : ℕ} {es : Entries} {k : Key} {v w : Value} :
      (k, v) ∈ es → Sub v w → Sub (.table border es) w

/-- One entry for each key, and no string that begins with a zero byte. -/
structure Plain (v : Value) : Prop where
  keys : ∀ border es, Sub v (.table border es) → (es.map (·.1)).Nodup
  strings : ∀ s, Sub v (.string s) → s.head? ≠ some 0

/-- No string key has a zero byte. -/
def CleanKeys (v : Value) : Prop :=
  ∀ border es, Sub v (.table border es) →
    ∀ k x, (.string k, x) ∈ es → 0 ∉ k

/-- The arrays have no other entries than those up to the border. -/
def Exact (v : Value) : Prop :=
  ∀ border es, Sub v (.table border es) →
    isRawarray border es = .ok true → es.length = border

/-! ## Entries -/

section Entries

variable {es fs : Entries} {k : Key} {v : Value} {border border' : ℕ}

theorem rawget_cons (k' : Key) :
    rawget ((k', v) :: es) k = if k' = k then some v else rawget es k := by
  rw [rawget, List.find?_cons]
  by_cases hk : k' = k
  · rw [if_pos hk, decide_eq_true hk]
    rfl
  · rw [if_neg hk, decide_eq_false hk]
    rfl

theorem mem_of_rawget (h : rawget es k = some v) : (k, v) ∈ es := by
  induction es with
  | nil => cases h
  | cons e es ih =>
      obtain ⟨k', v'⟩ := e
      rw [rawget_cons] at h
      split at h
      · rename_i hk
        cases h
        rw [hk]
        exact List.mem_cons_self
      · exact List.mem_cons_of_mem _ (ih h)

theorem rawget_eq_none (h : k ∉ es.map (·.1)) : rawget es k = none := by
  cases hget : rawget es k with
  | none => rfl
  | some v => exact absurd (List.mem_map_of_mem (mem_of_rawget hget)) h

theorem rawget_of_mem
    (hnodup : (es.map (·.1)).Nodup) (h : (k, v) ∈ es) :
    rawget es k = some v := by
  induction es with
  | nil => cases h
  | cons e es ih =>
      obtain ⟨k', v'⟩ := e
      obtain ⟨hnew, hnodup⟩ := List.nodup_cons.mp hnodup
      rw [rawget_cons]
      rcases List.mem_cons.mp h with heq | hmem
      · cases heq
        rw [if_pos rfl]
      · rw [if_neg, ih hnodup hmem]
        rintro rfl
        exact hnew (List.mem_map_of_mem (f := (·.1)) hmem)

/-- Both are missing, or both are there and equal. -/
def SameEntry : Option Value → Option Value → Prop
  | some v, some w => Equal v w
  | none, none => True
  | _, _ => False

theorem equal_table_iff :
    Equal (.table border es) (.table border' fs) ↔
      ∀ k, SameEntry (rawget es k) (rawget fs k) := by
  constructor
  · intro h k
    have hhead := h [k]
    have htail := fun ks => h (k :: ks)
    simp only [find] at hhead htail
    cases hes : rawget es k with
    | none =>
        cases hfs : rawget fs k with
        | none => trivial
        | some w =>
            rw [hes, hfs] at hhead
            cases hhead
    | some v =>
        cases hfs : rawget fs k with
        | none =>
            rw [hes, hfs] at hhead
            cases hhead
        | some w =>
            rw [hes, hfs] at htail
            exact htail
  · intro h ks
    cases ks with
    | nil => rfl
    | cons k ks =>
        have hk := h k
        simp only [find]
        cases hes : rawget es k with
        | none =>
            rw [hes] at hk
            cases hfs : rawget fs k with
            | none => rfl
            | some w => rw [hfs] at hk; exact hk.elim
        | some v =>
            rw [hes] at hk
            cases hfs : rawget fs k with
            | none => rw [hfs] at hk; exact hk.elim
            | some w => rw [hfs] at hk; exact hk ks

end Entries

/-! ## Tables inside values -/

section Sub

variable {es : Entries} {k : Key} {v : Value} {border : ℕ}

theorem Plain.entry (h : Plain (.table border es)) (he : (k, v) ∈ es) :
    Plain v :=
  ⟨fun b fs hsub => h.keys b fs (.entry he hsub),
    fun s hsub => h.strings s (.entry he hsub)⟩

theorem Plain.nodup (h : Plain (.table border es)) : (es.map (·.1)).Nodup :=
  h.keys border es (.refl _)

theorem CleanKeys.entry (h : CleanKeys (.table border es)) (he : (k, v) ∈ es) :
    CleanKeys v :=
  fun b fs hsub => h b fs (.entry he hsub)

theorem exact_table_iff :
    Exact (.table border es) ↔
      (isRawarray border es = .ok true → es.length = border) ∧
        ∀ e ∈ es, Exact e.2 := by
  constructor
  · intro h
    exact ⟨h border es (.refl _),
      fun e he b fs hsub => h b fs (.entry he hsub)⟩
  · rintro ⟨hown, hentries⟩ b fs hsub
    cases hsub with
    | refl => exact hown
    | entry he hsub => exact hentries _ he b fs hsub

theorem plain_table
    (hnodup : (es.map (·.1)).Nodup) (hentries : ∀ e ∈ es, Plain e.2) :
    Plain (.table border es) := by
  constructor
  · intro b fs hsub
    cases hsub with
    | refl => exact hnodup
    | entry he hsub => exact (hentries _ he).keys b fs hsub
  · intro s hsub
    cases hsub with
    | entry he hsub => exact (hentries _ he).strings s hsub

/-- A value that is no table, nor a string with a zero byte in front. -/
theorem plain_atom
    {v : Value} (hatom : ∀ border es, v ≠ .table border es)
    (hstring : ∀ s, v = .string s → s.head? ≠ some 0) : Plain v := by
  constructor
  · intro b fs hsub
    cases hsub with
    | refl => exact absurd rfl (hatom b fs)
    | entry => exact absurd rfl (hatom _ _)
  · intro s hsub
    cases hsub with
    | refl => exact hstring s rfl
    | entry => exact absurd rfl (hatom _ _)

theorem exact_atom {v : Value} (hatom : ∀ border es, v ≠ .table border es) :
    Exact v := by
  intro b fs hsub
  cases hsub with
  | refl => exact absurd rfl (hatom b fs)
  | entry => exact absurd rfl (hatom _ _)

/-- What is found in a value inside another one is found in that one. -/
theorem exists_path
    {v u : Value} (hplain : Plain v) (hsub : Sub v u) :
    ∃ ks, ∀ ks', find (ks ++ ks') v = find ks' u := by
  induction hsub with
  | refl v => exact ⟨[], fun _ => rfl⟩
  | @entry border es k v w he hsub ih =>
      obtain ⟨ks, hks⟩ := ih (hplain.entry he)
      refine ⟨k :: ks, fun ks' => ?_⟩
      rw [List.cons_append, find, rawget_of_mem hplain.nodup he]
      exact hks ks'

/-- Keys that something is found under are keys of tables. -/
theorem exists_sub_of_find
    {v : Value} {ks : List Key} (h : find (ks ++ [k]) v ≠ none) :
    ∃ border es x, Sub v (.table border es) ∧ (k, x) ∈ es := by
  induction ks generalizing v with
  | nil =>
      cases v with
      | table border es =>
          rw [List.nil_append, find] at h
          cases hget : rawget es k with
          | none =>
              rw [hget] at h
              exact absurd rfl h
          | some x => exact ⟨border, es, x, .refl _, mem_of_rawget hget⟩
      | _ => exact absurd rfl h
  | cons k' ks ih =>
      cases v with
      | table border es =>
          rw [List.cons_append, find] at h
          cases hget : rawget es k' with
          | none =>
              rw [hget] at h
              exact absurd rfl h
          | some y =>
              rw [hget] at h
              obtain ⟨b, fs, x, hsub, hx⟩ := ih h
              exact ⟨b, fs, x, .entry (mem_of_rawget hget) hsub, hx⟩
      | _ => exact absurd rfl h

/-- A value that is equal to one with clean keys has clean keys. -/
theorem CleanKeys.of_equal
    {v w : Value} (hw : CleanKeys w) (hplain : Plain v) (h : Equal v w) :
    CleanKeys v := by
  intro border es hsub k x hx
  obtain ⟨ks, hks⟩ := exists_path hplain hsub
  have hfound : find (ks ++ [.string k]) w ≠ none := by
    rw [← h, hks, find, rawget_of_mem (hplain.keys border es hsub) hx]
    exact fun hnone => by cases x <;> cases hnone
  obtain ⟨b, fs, y, hsub', hy⟩ := exists_sub_of_find hfound
  exact hw b fs hsub' k y hy

/-- A table that was made from entries of another one, each of which is equal
exactly if it is exact. -/
theorem equal_iff_exact
    {fs : Entries} {border' : ℕ} (hes : (es.map (·.1)).Nodup)
    (hfs : (fs.map (·.1)).Nodup)
    (hfields : ∀ f ∈ fs, ∃ v, (f.1, v) ∈ es ∧ (Equal v f.2 ↔ Exact v)) :
    Equal (.table border es) (.table border' fs) ↔
      es.length = fs.length ∧ ∀ e ∈ es, Exact e.2 := by
  have hsub : fs.map (·.1) ⊆ es.map (·.1) := by
    intro k hk
    obtain ⟨f, hf, rfl⟩ := List.mem_map.mp hk
    obtain ⟨v, hv, -⟩ := hfields f hf
    exact List.mem_map_of_mem (f := (·.1)) hv
  have hfound : ∀ e ∈ es, e.1 ∈ fs.map (·.1) →
      ∃ w, rawget fs e.1 = some w ∧ (Equal e.2 w ↔ Exact e.2) := by
    intro e he hmem
    obtain ⟨f, hf, hkey⟩ := List.mem_map.mp hmem
    obtain ⟨v, hv, hiff⟩ := hfields f hf
    have hsame : rawget es e.1 = some v := by
      rw [← hkey]
      exact rawget_of_mem hes hv
    rw [rawget_of_mem hes he] at hsame
    cases hsame
    refine ⟨f.2, ?_, hiff⟩
    rw [← hkey]
    exact rawget_of_mem hfs hf
  have hlength : es.length = fs.length ↔ ∀ e ∈ es, e.1 ∈ fs.map (·.1) := by
    have hsubperm := hfs.subperm hsub
    constructor
    · intro heq e he
      have hperm := hsubperm.perm_of_length_le (by
        rw [List.length_map, List.length_map, heq])
      exact hperm.mem_iff.mpr (List.mem_map_of_mem he)
    · intro hall
      have hsub' : es.map (·.1) ⊆ fs.map (·.1) := by
        intro k hk
        obtain ⟨e, he, rfl⟩ := List.mem_map.mp hk
        exact hall e he
      have hle := (hes.subperm hsub').length_le
      have hge := hsubperm.length_le
      rw [List.length_map, List.length_map] at hle hge
      omega
  rw [hlength, equal_table_iff]
  constructor
  · intro h
    have hmem : ∀ e ∈ es, e.1 ∈ fs.map (·.1) := by
      intro e he
      by_contra hnot
      have hsame := h e.1
      rw [rawget_of_mem hes he, rawget_eq_none hnot] at hsame
      exact hsame
    refine ⟨hmem, fun e he => ?_⟩
    obtain ⟨w, hw, hiff⟩ := hfound e he (hmem e he)
    have hsame := h e.1
    rw [rawget_of_mem hes he, hw] at hsame
    exact hiff.mp hsame
  · rintro ⟨hmem, hexact⟩ k
    by_cases hk : k ∈ es.map (·.1)
    · obtain ⟨e, he, rfl⟩ := List.mem_map.mp hk
      obtain ⟨w, hw, hiff⟩ := hfound e he (hmem e he)
      rw [rawget_of_mem hes he, hw]
      exact hiff.mpr (hexact e he)
    · rw [rawget_eq_none hk, rawget_eq_none fun hmem => hk (hsub hmem)]
      trivial

end Sub

end SkynetServer.Bson
