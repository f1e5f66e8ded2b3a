import SkynetServer.Handle.Registry
import SkynetServer.Support.SortedArray

/-!
# The names of the handle storage

The names are kept in an array that is sorted by `strcmp`.  The storage of the
other modules has the names as a list; here is the array that the source keeps,
with its loops.

Locks are left out: a call works on the array under the lock of the storage.
The contents of the memory of a new array are those that it had before.
-/

namespace SkynetServer.Handle

open SortedArray Transition

/-- The bytes of a C string before its end. -/
abbrev CString := List UInt8

/-- `strcmp`: bytes are compared without a sign, and a string is before those
that it begins. -/
def strcmp (s t : CString) : Ordering := compare s t

instance : Std.TransCmp strcmp :=
  inferInstanceAs (Std.TransCmp (compare (α := CString)))

instance : Std.LawfulEqCmp strcmp :=
  inferInstanceAs (Std.LawfulEqCmp (compare (α := CString)))

/-- `MAX_SLOT_SIZE` -/
def maxSlotSize : ℕ := 0x40000000

/-- `struct handle_name` with the bytes of the name -/
structure NamedHandle where
  name : CString
  handle : ℕ
  deriving DecidableEq

/-- The fields of `struct handle_storage` that keep the names. -/
structure NameTable where
  nameCap : ℕ
  nameCount : ℕ
  name : ℕ → NamedHandle

/-- The part of `skynet_handle_init` about the names. -/
def namesInit (memory : ℕ → NamedHandle) : NameTable where
  nameCap := 2
  nameCount := 0
  name := memory

namespace NameTable

/-- The names in use. -/
def contents (t : NameTable) : List NamedHandle := entries t.name t.nameCount

/-- The binary search of `skynet_handle_findname` and `_insert_name`: the place
of the name, or the place where it has to be inserted. -/
def find (t : NameTable) (name : CString) : ℕ ⊕ ℕ :=
  search (fun i => strcmp (t.name i).name name) t.nameCount 0
    ((t.nameCount : ℤ) - 1)

/-- `skynet_handle_findname` -/
def findname (t : NameTable) (name : CString) : ℕ :=
  match t.find name with
  | .inl mid => (t.name mid).handle
  | .inr _ => 0

/-- `_insert_name_before`; there is no result when the assertion fails, or when
the capacity would not be an `int`. -/
def insertNameBefore
    (t : NameTable) (memory : ℕ → NamedHandle) (name : CString) (handle : ℕ)
    (before : ℕ) : Option NameTable :=
  if t.nameCount ≥ t.nameCap then
    if t.nameCap * 2 ≤ maxSlotSize then
      let n := copy t.name 1 (t.nameCount - before) before
        (copy t.name 0 before 0 memory)
      some
        { nameCap := t.nameCap * 2
          nameCount := t.nameCount + 1
          name := Function.update n before ⟨name, handle⟩ }
    else none
  else
    let n := shiftUp before t.nameCount t.name
    some
      { t with
        nameCount := t.nameCount + 1
        name := Function.update n before ⟨name, handle⟩ }

/-- `_insert_name`: the storage, and the copy of the name that it returns. -/
def insertName
    (t : NameTable) (memory : ℕ → NamedHandle) (name : CString) (handle : ℕ) :
    Option (NameTable × Option CString) :=
  match t.find name with
  | .inl _ => some (t, none)
  | .inr first =>
    (t.insertNameBefore memory name handle first).map fun t => (t, some name)

/-- `skynet_handle_namehandle` -/
def namehandle
    (t : NameTable) (memory : ℕ → NamedHandle) (handle : ℕ) (name : CString) :
    Option (NameTable × Option CString) :=
  t.insertName memory name handle

/-- The loop of `skynet_handle_retire`. -/
def dropHandle (t : NameTable) (handle : ℕ) : NameTable :=
  let r := compact (fun n => decide (n.handle ≠ handle)) t.nameCount 0 0 t.name
  { t with nameCount := r.1, name := r.2 }

/-! ## The array -/

/-- The array is strictly sorted, within its capacity. -/
structure Sorted (t : NameTable) : Prop where
  sorted : t.contents.Pairwise fun a b => strcmp a.name b.name = .lt
  count : t.nameCount ≤ t.nameCap
  cap : 0 < t.nameCap

variable {t : NameTable}

theorem sorted_namesInit (memory : ℕ → NamedHandle) :
    (namesInit memory).Sorted where
  sorted := List.Pairwise.nil
  count := Nat.zero_le _
  cap := Nat.succ_pos 1

theorem Sorted.ascending (h : t.Sorted) (name : CString) :
    Ascending (fun i => strcmp (t.name i).name name) t.nameCount where
  lt i j hij hj hlt := by
    have hpair := pairwise_entries.mp h.sorted i j hij hj
    exact Std.TransCmp.lt_trans hpair hlt
  gt i j hij hj hgt := by
    have hpair := pairwise_entries.mp h.sorted i j hij hj
    exact Std.OrientedCmp.gt_of_lt
      (Std.TransCmp.lt_trans (Std.OrientedCmp.lt_of_gt hgt) hpair)

theorem Sorted.find_spec (h : t.Sorted) (name : CString) :
    Found (fun i => strcmp (t.name i).name name) t.nameCount
      (t.find name) := by
  refine search_spec (h.ascending name) (by omega) (by omega) (by omega)
    (by omega) ?_ ?_
  · intro i hi
    omega
  · intro i hi hi'
    omega

/-- A name stands once in the array. -/
theorem Sorted.unique
    (h : t.Sorted) {a b : NamedHandle} (ha : a ∈ t.contents)
    (hb : b ∈ t.contents) (heq : a.name = b.name) : a = b := by
  obtain ⟨i, hi, rfl⟩ := mem_entries.mp ha
  obtain ⟨j, hj, rfl⟩ := mem_entries.mp hb
  have hpair := pairwise_entries.mp h.sorted
  have hself : ∀ s : CString, strcmp s s ≠ .lt := by
    intro s hlt
    have hself : strcmp s s = .eq := Std.ReflCmp.compare_self
    rw [hself] at hlt
    cases hlt
  rcases Nat.lt_trichotomy i j with hlt | rfl | hgt
  · have hcmp := hpair i j hlt hj
    rw [heq] at hcmp
    exact absurd hcmp (hself _)
  · rfl
  · have hcmp := hpair j i hgt hi
    rw [heq] at hcmp
    exact absurd hcmp (hself _)

variable {a : NamedHandle}

/-- The search finds a name that is in the array. -/
theorem Sorted.find_of_mem
    (h : t.Sorted) (ha : a ∈ t.contents) :
    ∃ mid, t.find a.name = .inl mid ∧ t.name mid = a := by
  have hfound := h.find_spec a.name
  cases hfind : t.find a.name with
  | inl mid =>
      rw [hfind] at hfound
      have hname := Std.LawfulEqCmp.eq_of_compare hfound.2
      have hmem : t.name mid ∈ t.contents :=
        mem_entries.mpr ⟨mid, hfound.1, rfl⟩
      exact ⟨mid, rfl, h.unique hmem ha hname⟩
  | inr first =>
      rw [hfind] at hfound
      obtain ⟨i, hi, rfl⟩ := mem_entries.mp ha
      have hself : strcmp (t.name i).name (t.name i).name = .eq :=
        Std.ReflCmp.compare_self
      rcases Nat.lt_or_ge i first with hlt | hge
      · have hcmp := hfound.2.1 i hlt
        dsimp only at hcmp
        rw [hself] at hcmp
        cases hcmp
      · have hcmp := hfound.2.2 i hge hi
        dsimp only at hcmp
        rw [hself] at hcmp
        cases hcmp

variable {name : CString}

/-- What the search finds is in the array. -/
theorem Sorted.mem_of_find
    (h : t.Sorted) {mid : ℕ} (hfind : t.find name = .inl mid) :
    t.name mid ∈ t.contents ∧ (t.name mid).name = name := by
  have hfound := h.find_spec name
  rw [hfind] at hfound
  exact ⟨mem_entries.mpr ⟨mid, hfound.1, rfl⟩,
    Std.LawfulEqCmp.eq_of_compare hfound.2⟩

theorem Sorted.findname_of_mem
    (h : t.Sorted) (ha : a ∈ t.contents) :
    t.findname a.name = a.handle := by
  obtain ⟨mid, hfind, hmid⟩ := h.find_of_mem ha
  rw [findname, hfind, ← hmid]

theorem Sorted.findname_of_not_mem
    (h : t.Sorted)
    (hno : ∀ a ∈ t.contents, a.name ≠ name) : t.findname name = 0 := by
  rw [findname]
  cases hfind : t.find name with
  | inl mid =>
      obtain ⟨hmem, heq⟩ := h.mem_of_find hfind
      exact absurd heq (hno _ hmem)
  | inr first => rfl

/-- A name that is bound already is refused. -/
theorem Sorted.namehandle_of_mem
    (h : t.Sorted) (ha : a ∈ t.contents)
    (memory : ℕ → NamedHandle) (handle : ℕ) :
    t.namehandle memory handle a.name = some (t, none) := by
  obtain ⟨mid, hfind, -⟩ := h.find_of_mem ha
  rw [namehandle, insertName, hfind]

theorem insertNameBefore_contents
    {memory : ℕ → NamedHandle} {handle before : ℕ}
    {t' : NameTable} (hle : before ≤ t.nameCount)
    (h : t.insertNameBefore memory name handle before = some t') :
    t'.contents = t.contents.take before ++
        ⟨name, handle⟩ :: t.contents.drop before ∧
      t'.nameCount = t.nameCount + 1 ∧
      (t'.nameCap = t.nameCap ∧ t.nameCount < t.nameCap ∨
        t'.nameCap = t.nameCap * 2 ∧ t.nameCap ≤ t.nameCount) := by
  rw [insertNameBefore] at h
  split_ifs at h with hfull hlimit
  · cases h
    exact ⟨entries_copy hle _, rfl, .inr ⟨rfl, hfull⟩⟩
  · cases h
    exact ⟨entries_shiftUp hle _, rfl, .inl ⟨rfl, by omega⟩⟩

/-- A name that is not bound is put in its place. -/
theorem Sorted.namehandle_of_not_mem
    (h : t.Sorted) (hno : ∀ a ∈ t.contents, a.name ≠ name)
    {memory : ℕ → NamedHandle} {handle : ℕ} {r : NameTable × Option CString}
    (hr : t.namehandle memory handle name = some r) :
    r.1.Sorted ∧ r.2 = some name ∧
      ∀ a, a ∈ r.1.contents ↔ a = ⟨name, handle⟩ ∨ a ∈ t.contents := by
  have hfound := h.find_spec name
  rw [namehandle, insertName] at hr
  cases hfind : t.find name with
  | inl mid =>
      obtain ⟨hmem, heq⟩ := h.mem_of_find hfind
      exact absurd heq (hno _ hmem)
  | inr first =>
      rw [hfind] at hfound hr
      obtain ⟨t', ht', rfl⟩ := Option.map_eq_some_iff.mp hr
      obtain ⟨hle, hlt, hgt⟩ := hfound
      obtain ⟨hcontents, hcount, hcap⟩ := insertNameBefore_contents hle ht'
      have hpos := h.cap
      have hbound := h.count
      refine ⟨⟨?_, ?_, ?_⟩, rfl, fun a => ?_⟩
      · rw [hcontents]
        refine pairwise_insert h.sorted ?_ ?_
        · intro b hb
          obtain ⟨i, hi, rfl⟩ := exists_of_mem_take hb
          exact hlt i hi
        · intro b hb
          obtain ⟨i, hi, hi', rfl⟩ := exists_of_mem_drop hb
          exact Std.OrientedCmp.lt_of_gt (hgt i hi hi')
      · dsimp only
        omega
      · dsimp only
        omega
      · rw [hcontents]
        exact mem_insert

theorem dropHandle_contents (t : NameTable) (handle : ℕ) :
    (t.dropHandle handle).contents =
      t.contents.filter fun n => n.handle ≠ handle :=
  entries_compact _ t.nameCount t.name

/-- The names of a handle are removed, and no others. -/
theorem mem_dropHandle {handle : ℕ} :
    a ∈ (t.dropHandle handle).contents ↔
      a ∈ t.contents ∧ a.handle ≠ handle := by
  rw [dropHandle_contents, List.mem_filter, decide_eq_true_iff]

theorem Sorted.dropHandle (h : t.Sorted) (handle : ℕ) :
    (t.dropHandle handle).Sorted where
  sorted := by
    rw [dropHandle_contents]
    exact h.sorted.filter _
  count := by
    have hle := compact_le (fun n => decide (NamedHandle.handle n ≠ handle))
      t.nameCount 0 0 t.name
    have hcount := h.count
    simp only [NameTable.dropHandle]
    omega
  cap := h.cap

end NameTable

end SkynetServer.Handle
