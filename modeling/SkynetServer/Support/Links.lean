import Mathlib.Data.List.Nodup

/-!
# Chains of linked nodes

Nodes with a pointer to a next one, of which some lie one behind the other from
a first pointer on.  The nodes are not allocated or freed, as those of an array;
they are put in front of a chain and taken out of it.
-/

namespace Links

variable {α : Type*}

/-- From the pointer `p` on, the nodes of `l` follow one another, and the last
one has no successor. -/
def Path (next : α → Option α) : Option α → List α → Prop
  | p, [] => p = none
  | p, c :: l => p = some c ∧ Path next (next c) l

section Path

variable {next next' : α → Option α} {p : Option α} {l l' : List α} {c : α}

theorem Path.congr
    (h : Path next p l) (heq : ∀ c ∈ l, next' c = next c) :
    Path next' p l := by
  induction l generalizing p with
  | nil => exact h
  | cons c l ih =>
      obtain ⟨hp, hnext⟩ := h
      refine ⟨hp, ?_⟩
      rw [heq c List.mem_cons_self]
      exact ih hnext fun d hd => heq d (List.mem_cons_of_mem c hd)

/-- The pointer determines the nodes. -/
theorem Path.unique (h : Path next p l) (h' : Path next p l') : l = l' := by
  induction l generalizing p l' with
  | nil =>
      cases l' with
      | nil => rfl
      | cons c l' =>
          have hp := h'.1
          rw [show p = none from h] at hp
          cases hp
  | cons c l ih =>
      obtain ⟨rfl, hnext⟩ := h
      cases l' with
      | nil => cases h'
      | cons d l' =>
          obtain ⟨hp, hnext'⟩ := h'
          obtain rfl := Option.some.inj hp
          rw [ih hnext hnext']

/-- The nodes from one of them on. -/
theorem Path.behind (h : Path next p (l ++ c :: l')) :
    Path next (some c) (c :: l') := by
  induction l generalizing p with
  | nil =>
      obtain ⟨rfl, hnext⟩ := h
      exact ⟨rfl, hnext⟩
  | cons d l ih => exact ih h.2

/-- A chain has no cycle. -/
theorem Path.nodup (h : Path next p l) : l.Nodup := by
  induction l generalizing p with
  | nil => exact List.nodup_nil
  | cons c l ih =>
      refine List.nodup_cons.mpr ⟨fun hmem => ?_, ih h.2⟩
      obtain ⟨l₁, l₂, rfl⟩ := List.append_of_mem hmem
      have hagain : Path next (some c) (c :: l₂) := h.2.behind
      have heq : c :: l₂ = c :: (l₁ ++ c :: l₂) :=
        hagain.unique ⟨rfl, h.2⟩
      have hlen := congrArg List.length heq
      simp only [List.length_cons, List.length_append] at hlen
      omega

end Path

section Change

variable [DecidableEq α] {next : α → Option α} {p q : Option α}
  {l l₁ l₂ : List α} {c t : α}

/-- The pointer of a node elsewhere changes. -/
theorem Path.update
    (h : Path next p l) (hc : c ∉ l) :
    Path (Function.update next c q) p l := by
  refine h.congr fun d hd => Function.update_of_ne ?_ _ _
  rintro rfl
  exact hc hd

/-- A node is put in front. -/
theorem Path.push (h : Path next p l) (hc : c ∉ l) :
    Path (Function.update next c p) (some c) (c :: l) := by
  refine ⟨rfl, ?_⟩
  rw [Function.update_self]
  exact h.update hc

/-- The node behind another one is taken out. -/
theorem Path.splice (h : Path next p (l₁ ++ c :: t :: l₂)) :
    Path (Function.update next c (next t)) p (l₁ ++ c :: l₂) := by
  have hnodup := h.nodup
  induction l₁ generalizing p with
  | nil =>
      obtain ⟨hp, -, hrest⟩ := h
      refine ⟨hp, ?_⟩
      rw [Function.update_self]
      refine hrest.update fun hmem => ?_
      exact (List.nodup_cons.mp hnodup).1 (List.mem_cons_of_mem t hmem)
  | cons d l₁ ih =>
      obtain ⟨hp, hrest⟩ := h
      obtain ⟨hd, hnodup⟩ := List.nodup_cons.mp hnodup
      refine ⟨hp, ?_⟩
      rw [Function.update_of_ne]
      · exact ih hrest hnodup
      · rintro rfl
        exact hd (List.mem_append_right l₁ List.mem_cons_self)

/-- A node is put behind the last one. -/
theorem Path.concat
    (h : Path next p l) (ht : l.getLast? = some t) (hc : c ∉ l)
    (hnext : next c = none) :
    Path (Function.update next t (some c)) p (l ++ [c]) := by
  induction l generalizing p with
  | nil => cases ht
  | cons d l ih =>
      obtain ⟨hp, hrest⟩ := h
      have hdl := (List.nodup_cons.mp (Path.nodup ⟨hp, hrest⟩)).1
      obtain ⟨hcd, hcl⟩ := not_or.mp (List.mem_cons.not.mp hc)
      refine ⟨hp, ?_⟩
      cases l with
      | nil =>
          have htd : d = t := Option.some.inj ht
          rw [← htd, Function.update_self]
          refine ⟨rfl, ?_⟩
          rw [Function.update_of_ne hcd]
          exact hnext
      | cons e l =>
          rw [List.getLast?_cons_cons] at ht
          rw [Function.update_of_ne]
          · exact ih hrest ht hcl
          · rintro rfl
            exact hdl (List.mem_of_getLast? ht)

end Change

/-- Nodes that are allocated one behind the other. -/
theorem path_range'
    {next : ℕ → Option ℕ} {a n : ℕ}
    (h : ∀ b, a ≤ b → b < a + n →
      next b = if b + 1 = a + n then none else some (b + 1)) :
    Path next (if n = 0 then none else some a) (List.range' a n) := by
  induction n generalizing a with
  | zero => rfl
  | succ n ih =>
      rw [List.range'_succ, if_neg (Nat.succ_ne_zero n)]
      refine ⟨rfl, ?_⟩
      have hrest := ih (a := a + 1) fun b hab hb => by
        rw [h b (by omega) (by omega)]
        rw [Nat.add_right_comm, Nat.add_assoc]
      rw [h a (Nat.le_refl a) (by omega)]
      by_cases hn : n = 0
      · rw [if_pos hn] at hrest
        rw [if_pos (by omega)]
        exact hrest
      · rw [if_neg hn] at hrest
        rw [if_neg (by omega)]
        exact hrest

end Links
