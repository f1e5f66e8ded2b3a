import Mathlib.Data.List.AList

/-!
# Lists of heap nodes with two ends

A list whose nodes lie in a heap: a node has a value and a pointer to its
successor, and the list is given by pointers to its first and its last node.
A list is described by the addresses and the values of its nodes.

`Walk` is about the nodes from a pointer on.  `Holds` also says that the second
pointer of the list is to its last node; a loop that removes nodes from the
front may leave this for its end, and until then the list is only `Loose`.
-/

namespace Chains

variable {α : Type*}

/-- A node of a list. -/
structure Node (α : Type*) where
  value : α
  next : Option ℕ
  deriving DecidableEq, Repr

/-- The nodes that are allocated. -/
abbrev Heap (α : Type*) := AList fun _ : ℕ => Node α

/-- The pointers to the first and to the last node of a list. -/
structure Ends where
  head : Option ℕ := none
  tail : Option ℕ := none
  deriving DecidableEq, Repr

/-- The addresses of the nodes. -/
def addresses (l : List (ℕ × α)) : List ℕ := l.map Prod.fst

@[simp] theorem addresses_nil : addresses ([] : List (ℕ × α)) = [] := rfl

@[simp] theorem addresses_cons (x : ℕ × α) (l : List (ℕ × α)) :
    addresses (x :: l) = x.1 :: addresses l := rfl

@[simp] theorem addresses_append (l l' : List (ℕ × α)) :
    addresses (l ++ l') = addresses l ++ addresses l' :=
  List.map_append

theorem getLast?_addresses (x y : ℕ × α) (l : List (ℕ × α)) :
    (addresses (x :: y :: l)).getLast? = (addresses (y :: l)).getLast? :=
  List.getLast?_cons_cons

/-- From the pointer `p` on, the nodes of `l` follow one another, and the last
one has no successor. -/
def Walk (h : Heap α) : Option ℕ → List (ℕ × α) → Prop
  | p, [] => p = none
  | p, x :: l =>
    p = some x.1 ∧ ∃ next, h.lookup x.1 = some ⟨x.2, next⟩ ∧ Walk h next l

/-- The list from the first pointer on, with the second one at its last node
unless the list is empty. -/
structure Loose (h : Heap α) (e : Ends) (l : List (ℕ × α)) : Prop where
  walk : Walk h e.head l
  last : l ≠ [] → e.tail = (addresses l).getLast?

/-- The list between the two pointers, which are null if it is empty. -/
structure Holds (h : Heap α) (e : Ends) (l : List (ℕ × α)) : Prop where
  walk : Walk h e.head l
  tail : e.tail = (addresses l).getLast?

section Walk

variable {h h' : Heap α} {p : Option ℕ} {l l' : List (ℕ × α)} {a t : ℕ}
  {v w : α}

theorem Walk.congr
    (hwalk : Walk h p l)
    (heq : ∀ a ∈ addresses l, h'.lookup a = h.lookup a) : Walk h' p l := by
  induction l generalizing p with
  | nil => exact hwalk
  | cons x l ih =>
      obtain ⟨hp, next, hx, hnext⟩ := hwalk
      refine ⟨hp, next, ?_, ih hnext fun a ha => ?_⟩
      · rw [heq x.1 List.mem_cons_self, hx]
      · exact heq a (List.mem_cons_of_mem _ ha)

/-- The pointer determines the nodes. -/
theorem Walk.unique (hwalk : Walk h p l) (hwalk' : Walk h p l') : l = l' := by
  induction l generalizing p l' with
  | nil =>
      cases l' with
      | nil => rfl
      | cons x l' =>
          obtain ⟨hp, -⟩ := hwalk'
          rw [show p = none from hwalk] at hp
          cases hp
  | cons x l ih =>
      obtain ⟨rfl, next, hx, hnext⟩ := hwalk
      cases l' with
      | nil => cases hwalk'
      | cons y l' =>
          obtain ⟨hp, next', hy, hnext'⟩ := hwalk'
          have haddress : y.1 = x.1 := (Option.some.inj hp).symm
          rw [haddress, hx] at hy
          obtain ⟨hvalue, rfl⟩ := Node.mk.inj (Option.some.inj hy)
          rw [ih hnext hnext', Prod.ext haddress.symm hvalue]

theorem Walk.of_mem (hwalk : Walk h p l) (ha : a ∈ addresses l) :
    ∃ l₁ l₂, l = l₁ ++ l₂ ∧ Walk h (some a) l₂ := by
  induction l generalizing p with
  | nil => cases ha
  | cons x l ih =>
      obtain ⟨rfl, next, hx, hnext⟩ := hwalk
      rcases List.mem_cons.mp ha with rfl | ha
      · exact ⟨[], x :: l, rfl, rfl, next, hx, hnext⟩
      · obtain ⟨l₁, l₂, rfl, hwalk⟩ := ih hnext ha
        exact ⟨x :: l₁, l₂, rfl, hwalk⟩

/-- No node comes twice. -/
theorem Walk.notMem_tail {x : ℕ × α} (hwalk : Walk h p (x :: l)) :
    x.1 ∉ addresses l := by
  obtain ⟨rfl, next, hx, hnext⟩ := hwalk
  intro hmem
  obtain ⟨l₁, l₂, hl, hagain⟩ := hnext.of_mem hmem
  have heq := Walk.unique (l := x :: l) ⟨rfl, next, hx, hnext⟩ hagain
  have hlength := congrArg List.length heq
  rw [hl, List.length_cons, List.length_append] at hlength
  omega

theorem Walk.lookup {x : ℕ × α} (hwalk : Walk h p l) (hx : x ∈ l) :
    ∃ next, h.lookup x.1 = some ⟨x.2, next⟩ := by
  induction l generalizing p with
  | nil => cases hx
  | cons y l ih =>
      obtain ⟨-, next, hy, hnext⟩ := hwalk
      rcases List.mem_cons.mp hx with rfl | hx
      · exact ⟨next, hy⟩
      · exact ih hnext hx

/-- The nodes are allocated. -/
theorem Walk.mem (hwalk : Walk h p l) (ha : a ∈ addresses l) : a ∈ h := by
  obtain ⟨x, hx, rfl⟩ := List.mem_map.mp ha
  obtain ⟨next, hlookup⟩ := hwalk.lookup hx
  exact AList.lookup_isSome.mp (by rw [hlookup]; rfl)

/-- A node elsewhere is stored. -/
theorem Walk.insert
    {n : Node α} (hwalk : Walk h p l) (ha : a ∉ addresses l) :
    Walk (h.insert a n) p l :=
  hwalk.congr fun _ hb => AList.lookup_insert_ne fun he => ha (he ▸ hb)

/-- A node elsewhere is freed. -/
theorem Walk.erase (hwalk : Walk h p l) (ha : a ∉ addresses l) :
    Walk (h.erase a) p l :=
  hwalk.congr fun _ hb => AList.lookup_erase_ne fun he => ha (he ▸ hb)

/-- A node is put before the first one. -/
theorem Walk.push (hwalk : Walk h p l) (ha : a ∉ addresses l) :
    Walk (h.insert a ⟨v, p⟩) (some a) ((a, v) :: l) :=
  ⟨rfl, p, AList.lookup_insert h, hwalk.insert ha⟩

/-- The nodes behind the first one. -/
theorem Walk.next
    {next : Option ℕ} (hwalk : Walk h p ((a, v) :: l))
    (ha : h.lookup a = some ⟨w, next⟩) : Walk h next l := by
  obtain ⟨-, next', ha', hnext⟩ := hwalk
  rw [ha] at ha'
  cases ha'
  exact hnext

/-- The first node is unlinked and freed. -/
theorem Walk.pop
    {next : Option ℕ} (hwalk : Walk h p ((a, v) :: l))
    (ha : h.lookup a = some ⟨w, next⟩) : Walk (h.erase a) next l :=
  (hwalk.next ha).erase hwalk.notMem_tail

/-- The value of the first node is replaced. -/
theorem Walk.setHead
    {next : Option ℕ} (hwalk : Walk h p ((a, v) :: l))
    (ha : h.lookup a = some ⟨v, next⟩) :
    Walk (h.insert a ⟨w, next⟩) p ((a, w) :: l) :=
  ⟨hwalk.1, next, AList.lookup_insert h,
    (hwalk.next ha).insert hwalk.notMem_tail⟩

/-- The last node has no successor. -/
theorem Walk.lookup_last
    (hwalk : Walk h p l) (ht : (addresses l).getLast? = some t) :
    ∃ v, h.lookup t = some ⟨v, none⟩ := by
  induction l generalizing p with
  | nil => cases ht
  | cons x l ih =>
      obtain ⟨-, next, hx, hnext⟩ := hwalk
      cases l with
      | nil =>
          obtain rfl : x.1 = t := Option.some.inj ht
          rw [show next = none from hnext] at hx
          exact ⟨x.2, hx⟩
      | cons y l => exact ih hnext ((getLast?_addresses x y l).symm.trans ht)

/-- A new node becomes the successor of the last one. -/
theorem Walk.concat
    (hwalk : Walk h p l) (ht : (addresses l).getLast? = some t)
    (hlookup : h.lookup t = some ⟨v, none⟩) (ha : a ∉ addresses l) :
    Walk ((h.insert a ⟨w, none⟩).insert t ⟨v, some a⟩) p
      (l ++ [(a, w)]) := by
  induction l generalizing p with
  | nil => cases ht
  | cons x l ih =>
      have hnot := hwalk.notMem_tail
      obtain ⟨hp, next, hx, hnext⟩ := hwalk
      have hax : a ≠ x.1 := fun he => ha (he ▸ List.mem_cons_self)
      have hal : a ∉ addresses l := fun hmem => ha (List.mem_cons_of_mem _ hmem)
      cases l with
      | nil =>
          obtain rfl : x.1 = t := Option.some.inj ht
          rw [hx] at hlookup
          cases hlookup
          refine ⟨hp, some a, AList.lookup_insert _, rfl, none, ?_, rfl⟩
          rw [AList.lookup_insert_ne hax, AList.lookup_insert]
      | cons y l =>
          have ht' : (addresses (y :: l)).getLast? = some t :=
            (getLast?_addresses x y l).symm.trans ht
          have hxt : x.1 ≠ t := fun he =>
            hnot (he ▸ List.mem_of_getLast? ht')
          refine ⟨hp, next, ?_, ih hnext ht' hal⟩
          rw [AList.lookup_insert_ne hxt, AList.lookup_insert_ne hax.symm, hx]

end Walk

section Ends

variable {h : Heap α} {e : Ends} {l : List (ℕ × α)}

theorem holds_nil (h : Heap α) : Holds h ⟨none, none⟩ ([] : List (ℕ × α)) :=
  ⟨rfl, rfl⟩

theorem Holds.loose (hholds : Holds h e l) : Loose h e l :=
  ⟨hholds.walk, fun _ => hholds.tail⟩

theorem Walk.head_eq_none_iff {p : Option ℕ} (hwalk : Walk h p l) :
    p = none ↔ l = [] := by
  cases l with
  | nil => exact ⟨fun _ => rfl, fun _ => hwalk⟩
  | cons x l =>
      rw [hwalk.1]
      exact iff_of_false (Option.some_ne_none _) (List.cons_ne_nil _ _)

theorem Walk.exists_cons {a : ℕ} (hwalk : Walk h (some a) l) :
    ∃ v next l', l = (a, v) :: l' ∧ h.lookup a = some ⟨v, next⟩ ∧
      Walk h next l' := by
  cases l with
  | nil => cases hwalk
  | cons x l =>
      obtain ⟨hp, next, hx, hnext⟩ := hwalk
      have ha : x.1 = a := (Option.some.inj hp).symm
      exact ⟨x.2, next, l, by rw [← ha], by rw [← ha, hx], hnext⟩

end Ends

end Chains
