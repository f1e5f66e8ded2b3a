import Mathlib.Data.List.Nodup

/-!
# Intrusive queues

A queue whose nodes carry their own `next` pointer: the queue has a pointer
to its first and to its last node, and a node outside the queue has no
successor.  `Represents q l` says that the nodes of `q` are those of the list
`l`, in this order.

A null `next` does not mean that a node is outside the queue, since the last
node of the queue has a null `next` too.
-/

/-- A queue threaded through the `next` pointers of its nodes. -/
structure LinkedQueue (α : Type*) where
  head : Option α
  tail : Option α
  next : α → Option α

namespace LinkedQueue

variable {α : Type*}

/-- The empty queue; no node has a successor. -/
def empty : LinkedQueue α := ⟨none, none, fun _ => none⟩

section Operations

variable [DecidableEq α]

/-- Put a node behind the last one. -/
def push (q : LinkedQueue α) (x : α) : LinkedQueue α :=
  match q.tail with
  | some t => { q with next := Function.update q.next t (some x), tail := some x }
  | none => { q with head := some x, tail := some x }

/-- Unlink the first node `x`. -/
def unlink (q : LinkedQueue α) (x : α) : LinkedQueue α where
  head := q.next x
  tail := if q.next x = none then none else q.tail
  next := Function.update q.next x none

end Operations

/-- The `next` pointers run through the list and end with a null pointer. -/
def Linked (next : α → Option α) : List α → Prop
  | [] => True
  | [x] => next x = none
  | x :: y :: l => next x = some y ∧ Linked next (y :: l)

/-- The queue holds the nodes of the list, in the order of the list. -/
structure Represents (q : LinkedQueue α) (l : List α) : Prop where
  head : q.head = l.head?
  tail : q.tail = l.getLast?
  nodup : l.Nodup
  linked : Linked q.next l
  outside : ∀ x, x ∉ l → q.next x = none

theorem represents_empty : Represents (empty : LinkedQueue α) [] :=
  ⟨rfl, rfl, List.nodup_nil, trivial, fun _ _ => rfl⟩

theorem Linked.congr
    {next next' : α → Option α} {l : List α} (hlinked : Linked next l)
    (heq : ∀ x ∈ l, next' x = next x) : Linked next' l := by
  induction l with
  | nil => trivial
  | cons x l ih =>
      cases l with
      | nil => exact (heq x (by simp)).trans hlinked
      | cons y l =>
          refine ⟨(heq x (by simp)).trans hlinked.1, ih hlinked.2 ?_⟩
          intro z hz
          exact heq z (List.mem_cons_of_mem x hz)

theorem Linked.tail
    {next : α → Option α} {x : α} {l : List α}
    (hlinked : Linked next (x :: l)) : Linked next l ∧ next x = l.head? := by
  cases l with
  | nil => exact ⟨trivial, hlinked⟩
  | cons y l => exact ⟨hlinked.2, hlinked.1⟩

section Operations

variable [DecidableEq α] {q : LinkedQueue α} {l : List α} {x t : α}

theorem Linked.concat
    {next : α → Option α} (hlinked : Linked next l) (hnodup : l.Nodup)
    (hlast : l.getLast? = some t) (hx : x ∉ l) (hnone : next x = none) :
    Linked (Function.update next t (some x)) (l ++ [x]) := by
  induction l with
  | nil => cases hlast
  | cons y l ih =>
      cases l with
      | nil =>
          cases hlast
          have hne : x ≠ y := fun h => hx (by simp [h])
          exact ⟨Function.update_self ..,
            (Function.update_of_ne hne _ _).trans hnone⟩
      | cons z l =>
          have hlast' : (z :: l).getLast? = some t := by
            rwa [List.getLast?_cons_cons] at hlast
          have hy : y ≠ t := by
            rintro rfl
            exact (List.nodup_cons.mp hnodup).1 (List.mem_of_getLast? hlast')
          refine ⟨(Function.update_of_ne hy _ _).trans hlinked.1, ?_⟩
          apply ih hlinked.2 (List.nodup_cons.mp hnodup).2 hlast'
          exact fun hmem => hx (List.mem_cons_of_mem y hmem)

theorem Represents.push (h : Represents q l) (hx : x ∉ l) :
    Represents (q.push x) (l ++ [x]) := by
  have hnone := h.outside x hx
  have hnodup : (l ++ [x]).Nodup :=
    List.nodup_append.mpr ⟨h.nodup, List.nodup_singleton x, by
      rintro a ha b hb rfl
      exact hx (List.mem_singleton.mp hb ▸ ha)⟩
  cases hlast : l.getLast? with
  | none =>
      obtain rfl := List.getLast?_eq_none_iff.mp hlast
      have htail := h.tail.trans hlast
      refine ⟨by simp [LinkedQueue.push, htail], by simp [LinkedQueue.push, htail],
        hnodup, ?_, ?_⟩
      · simpa [LinkedQueue.push, htail, Linked] using hnone
      · intro y hy
        simpa [LinkedQueue.push, htail] using h.outside y List.not_mem_nil
  | some t =>
      have htail := h.tail.trans hlast
      refine ⟨?_, by simp [LinkedQueue.push, htail], hnodup, ?_, ?_⟩
      · have hne : l ≠ [] := by
          rintro rfl
          cases hlast
        simp [LinkedQueue.push, htail, h.head, List.head?_append_of_ne_nil _ hne]
      · simp only [LinkedQueue.push, htail]
        exact h.linked.concat h.nodup hlast hx hnone
      · intro y hy
        have hyt : y ≠ t := by
          rintro rfl
          exact hy (List.mem_append_left _ (List.mem_of_getLast? hlast))
        simp only [LinkedQueue.push, htail, Function.update_of_ne hyt]
        exact h.outside y fun hmem => hy (List.mem_append_left _ hmem)

theorem Represents.unlink (h : Represents q (x :: l)) :
    Represents (q.unlink x) l := by
  obtain ⟨hx, hnodup⟩ := List.nodup_cons.mp h.nodup
  obtain ⟨hlinked, hnext⟩ := h.linked.tail
  refine ⟨hnext, ?_, hnodup, ?_, ?_⟩
  · simp only [LinkedQueue.unlink, hnext]
    cases l with
    | nil => rfl
    | cons y l => simpa using h.tail
  · apply hlinked.congr
    intro y hy
    have hyx : y ≠ x := by
      rintro rfl
      exact hx hy
    exact Function.update_of_ne hyx _ _
  · intro y hy
    by_cases hyx : y = x
    · subst hyx
      exact Function.update_self ..
    · refine (Function.update_of_ne hyx _ _).trans (h.outside y ?_)
      simp [hyx, hy]

end Operations

section Ends

variable {q : LinkedQueue α} {l : List α} {x : α}

/-- A node without successor at the head of the queue is also its tail. -/
theorem Represents.tail_of_next_none
    (h : Represents q l) (hhead : q.head = some x) (hnone : q.next x = none) :
    q.tail = some x := by
  cases l with
  | nil => rw [h.head] at hhead; cases hhead
  | cons y l =>
      rw [h.head] at hhead
      cases hhead
      rw [h.linked.tail.2] at hnone
      obtain rfl := List.head?_eq_none_iff.mp hnone
      exact h.tail

theorem Represents.eq_cons (h : Represents q l) (hhead : q.head = some x) :
    ∃ l', l = x :: l' := by
  cases l with
  | nil => rw [h.head] at hhead; cases hhead
  | cons y l =>
      rw [h.head] at hhead
      cases hhead
      exact ⟨l, rfl⟩

theorem Represents.mem_of_tail (h : Represents q l) (htail : q.tail = some x) :
    x ∈ l :=
  List.mem_of_getLast? (h.tail.symm.trans htail)

end Ends

end LinkedQueue
