import Mathlib.Data.List.Basic

/-!
# Cells with readers that wait

A reader of a cell gets its value at once, or waits for the value that the
cell is given next.  A cell may be cleared and given a value again.  The names
of the cells, the readers and the values are arbitrary.
-/

/-- The values, the readers that wait, and the answers given so far. -/
structure Cells (P R V : Type*) where
  value : P → Option V
  waiting : P → List R
  answers : List (R × V)

namespace Cells

variable {P R V : Type*}

inductive Op (P R V : Type*) where
  | wait (p : P) (r : R)
  | give (p : P) (v : V)
  | clear (p : P)
  | idle

section Step

variable [DecidableEq P]

def step (c : Cells P R V) : Op P R V → Cells P R V
  | .wait p r =>
    match c.value p with
    | some v => { c with answers := c.answers ++ [(r, v)] }
    | none =>
      { c with waiting := Function.update c.waiting p (c.waiting p ++ [r]) }
  | .give p v =>
    { value := Function.update c.value p (some v)
      waiting := Function.update c.waiting p []
      answers := c.answers ++ (c.waiting p).map fun r => (r, v) }
  | .clear p => { c with value := Function.update c.value p none }
  | .idle => c

/-- Nobody waits for a cell that has a value. -/
def Served (c : Cells P R V) : Prop :=
  ∀ p v, c.value p = some v → c.waiting p = []

theorem Served.step
    {c : Cells P R V} (h : c.Served) (op : Op P R V) : (c.step op).Served := by
  intro q w hq
  cases op with
  | wait p r =>
      rw [Cells.step] at hq ⊢
      split at hq
      · exact h q w hq
      · rename_i hnone
        dsimp only
        rw [Function.update_of_ne]
        · exact h q w hq
        · rintro rfl
          rw [hnone] at hq
          cases hq
  | give p v =>
      rw [Cells.step] at hq ⊢
      dsimp only at hq ⊢
      rcases eq_or_ne q p with rfl | hne
      · exact Function.update_self q [] c.waiting
      · rw [Function.update_of_ne hne] at hq ⊢
        exact h q w hq
  | clear p =>
      rw [Cells.step] at hq ⊢
      dsimp only at hq ⊢
      rcases eq_or_ne q p with rfl | hne
      · rw [Function.update_self] at hq
        cases hq
      · rw [Function.update_of_ne hne] at hq
        exact h q w hq
  | idle => exact h q w hq

end Step

/-! ## One reader -/

/-- The reader does not ask in the step. -/
def Op.NotBy (r : R) : Op P R V → Prop
  | .wait _ r' => r' ≠ r
  | _ => True

/-- The reader has not asked. -/
structure Unknown (c : Cells P R V) (r : R) : Prop where
  waiting : ∀ p, r ∉ c.waiting p
  answers : ∀ v, (r, v) ∉ c.answers

/-- The reader waits once, for one cell, and has no answer. -/
structure Waits [DecidableEq R] (c : Cells P R V) (p : P) (r : R) : Prop where
  here : (c.waiting p).filter (· = r) = [r]
  elsewhere : ∀ q, q ≠ p → r ∉ c.waiting q
  answers : c.answers.filter (·.1 = r) = []

/-- The reader has one answer and does not wait. -/
structure Answered [DecidableEq R] (c : Cells P R V) (r : R) (v : V) : Prop where
  waiting : ∀ q, r ∉ c.waiting q
  answers : c.answers.filter (·.1 = r) = [(r, v)]

section Lists

variable {c : Cells P R V} {p : P} {r : R} {v : V}

/-- Another reader waits for a cell. -/
theorem mem_wait
    [DecidableEq P] {q : P} {r' : R} (hr : r' ≠ r) :
    r ∈ Function.update c.waiting p (c.waiting p ++ [r']) q ↔
      r ∈ c.waiting q := by
  rw [Function.update_apply]
  split
  · rename_i hq
    rw [List.mem_append, List.mem_singleton, hq]
    exact or_iff_left hr.symm
  · exact Iff.rfl

/-- A reader that has not asked stays unknown. -/
theorem Unknown.step
    [DecidableEq P] {op : Op P R V} (h : c.Unknown r) (hop : op.NotBy r) :
    (c.step op).Unknown r := by
  cases op with
  | wait q r' =>
      rw [Cells.step]
      split
      · refine ⟨h.waiting, fun w hmem => ?_⟩
        rcases List.mem_append.mp hmem with hmem | hmem
        · exact h.answers w hmem
        · rw [List.mem_singleton] at hmem
          cases hmem
          exact hop rfl
      · exact ⟨fun q' => (mem_wait hop).not.mpr (h.waiting q'), h.answers⟩
  | give q w =>
      constructor
      · intro q'
        rw [Cells.step]
        dsimp only
        rw [Function.update_apply]
        split
        · exact List.not_mem_nil
        · exact h.waiting q'
      · intro v hmem
        rcases List.mem_append.mp hmem with hmem | hmem
        · exact h.answers v hmem
        · obtain ⟨r', hr', heq⟩ := List.mem_map.mp hmem
          cases heq
          exact h.waiting q hr'
  | clear q => exact ⟨h.waiting, h.answers⟩
  | idle => exact h

variable [DecidableEq R]

theorem Unknown.filter (h : c.Unknown r) :
    c.answers.filter (·.1 = r) = [] := by
  rw [List.filter_eq_nil_iff]
  rintro ⟨r', v⟩ hmem heq
  rw [decide_eq_true_eq] at heq
  exact h.answers v (heq ▸ hmem)

theorem filter_answers_wait
    {r' : R} (hr : r' ≠ r) :
    (c.answers ++ [(r', v)]).filter (·.1 = r) = c.answers.filter (·.1 = r) := by
  rw [List.filter_append, List.filter_cons_of_neg (by simpa using hr),
    List.filter_nil, List.append_nil]

/-- The answers for a reader when a cell is given a value. -/
theorem filter_answers_give (q : P) :
    (c.answers ++ (c.waiting q).map fun r' => (r', v)).filter (·.1 = r) =
      c.answers.filter (·.1 = r) ++
        ((c.waiting q).filter (· = r)).map fun r' => (r', v) := by
  rw [List.filter_append, List.filter_map]
  rfl

theorem filter_eq_nil_of_not_mem
    {l : List R} (h : r ∉ l) : l.filter (· = r) = [] := by
  rw [List.filter_eq_nil_iff]
  intro r' hmem heq
  rw [decide_eq_true_eq] at heq
  exact h (heq ▸ hmem)

end Lists

section Reader

variable [DecidableEq P] [DecidableEq R] {c : Cells P R V} {p : P} {r : R}
  {v : V}

theorem Unknown.waits
    (h : c.Unknown r) (hnone : c.value p = none) :
    (c.step (.wait p r)).Waits p r := by
  have hstep : c.step (.wait p r) =
      { c with waiting := Function.update c.waiting p (c.waiting p ++ [r]) } := by
    rw [Cells.step, hnone]
  rw [hstep]
  constructor
  · dsimp only
    rw [Function.update_self, List.filter_append, List.filter_eq_nil_iff.mpr]
    · rw [List.nil_append, List.filter_singleton]
      simp
    · intro r' hmem heq
      rw [decide_eq_true_eq] at heq
      exact h.waiting p (heq ▸ hmem)
  · intro q hq
    dsimp only
    rw [Function.update_of_ne hq]
    exact h.waiting q
  · exact h.filter

theorem Unknown.answered
    (h : c.Unknown r) (hsome : c.value p = some v) :
    (c.step (.wait p r)).Answered r v := by
  rw [Cells.step, hsome]
  constructor
  · exact h.waiting
  · dsimp only
    rw [List.filter_append, h.filter, List.nil_append, List.filter_singleton]
    simp

/-- The reader waits until its cell is given a value. -/
theorem Waits.step
    {op : Op P R V} (h : c.Waits p r) (hop : op.NotBy r)
    (hgive : ∀ v, op ≠ .give p v) : (c.step op).Waits p r := by
  cases op with
  | wait q r' =>
      have hother : r' ≠ r := hop
      rw [Cells.step]
      split
      · refine ⟨h.here, h.elsewhere, ?_⟩
        exact (filter_answers_wait hop).trans h.answers
      · refine ⟨?_, fun q' hq' => ?_, h.answers⟩
        · dsimp only
          rw [Function.update_apply]
          split
          · rename_i hq
            rw [List.filter_append, ← hq, h.here,
              List.filter_cons_of_neg (by simpa using hother), List.filter_nil]
            rfl
          · exact h.here
        · exact (mem_wait hop).not.mpr (h.elsewhere q' hq')
  | give q v =>
      have hq : q ≠ p := fun hq => hgive v (by rw [hq])
      refine ⟨?_, fun q' hq' => ?_, ?_⟩
      · rw [Cells.step]
        dsimp only
        rw [Function.update_of_ne hq.symm]
        exact h.here
      · rw [Cells.step]
        dsimp only
        rw [Function.update_apply]
        split
        · exact List.not_mem_nil
        · exact h.elsewhere q' hq'
      · refine (filter_answers_give q).trans ?_
        rw [h.answers, filter_eq_nil_of_not_mem (h.elsewhere q hq)]
        rfl
  | clear q => exact ⟨h.here, h.elsewhere, h.answers⟩
  | idle => exact h

/-- The reader gets the value that its cell is given. -/
theorem Waits.give
    (h : c.Waits p r) (v : V) : (c.step (.give p v)).Answered r v := by
  constructor
  · intro q
    rw [Cells.step]
    dsimp only
    rw [Function.update_apply]
    split
    · exact List.not_mem_nil
    · rename_i hq
      exact h.elsewhere q hq
  · refine (filter_answers_give p).trans ?_
    rw [h.answers, h.here]
    rfl

/-- An answer is the only one of its reader. -/
theorem Answered.step
    {op : Op P R V} (h : c.Answered r v) (hop : op.NotBy r) :
    (c.step op).Answered r v := by
  cases op with
  | wait q r' =>
      rw [Cells.step]
      split
      · exact ⟨h.waiting, (filter_answers_wait hop).trans h.answers⟩
      · exact ⟨fun q' => (mem_wait hop).not.mpr (h.waiting q'), h.answers⟩
  | give q w =>
      constructor
      · intro q'
        rw [Cells.step]
        dsimp only
        rw [Function.update_apply]
        split
        · exact List.not_mem_nil
        · exact h.waiting q'
      · refine (filter_answers_give q).trans ?_
        rw [h.answers, filter_eq_nil_of_not_mem (h.waiting q)]
        rfl
  | clear q => exact ⟨h.waiting, h.answers⟩
  | idle => exact h

end Reader

end Cells
