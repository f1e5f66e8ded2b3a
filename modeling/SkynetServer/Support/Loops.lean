import Mathlib.Order.Preorder.Finite

/-!
# Loops that may not end

A loop goes from a state to the next one until there is none.  When only
finitely many states can be entered, it does not end if and only if it comes
to a state that leads back to itself.
-/

namespace Loops

variable {α : Type*} (next : α → Option α)

/-- The loop goes from a state to another. -/
def Steps (a b : α) : Prop := next a = some b

/-- The state after `n` rounds, if the loop has not ended before. -/
def iter : ℕ → α → Option α
  | 0, a => some a
  | n + 1, a => (next a).bind (iter n)

/-- The loop ends. -/
def Ends (a : α) : Prop := ∃ n, iter next n a = none

/-- The loop comes to a state that leads back to itself. -/
def Cyclic (a : α) : Prop :=
  ∃ b, Relation.ReflTransGen (Steps next) a b ∧
    Relation.TransGen (Steps next) b b

variable {next} {a b : α}

theorem ends_of_next
    (h : next a = some b) : Ends next a ↔ Ends next b := by
  constructor
  · rintro ⟨n, hn⟩
    cases n with
    | zero => cases hn
    | succ n =>
        rw [iter, h] at hn
        exact ⟨n, hn⟩
  · rintro ⟨n, hn⟩
    refine ⟨n + 1, ?_⟩
    rw [iter, h]
    exact hn

theorem ends_of_reaches
    (h : Relation.ReflTransGen (Steps next) a b) :
    Ends next a ↔ Ends next b := by
  induction h with
  | refl => exact Iff.rfl
  | tail _ hstep ih => exact ih.trans (ends_of_next hstep)

theorem iter_succ (n : ℕ) (a : α) :
    iter next (n + 1) a = (iter next n a).bind next := by
  induction n generalizing a with
  | zero =>
      cases h : next a with
      | none => rw [iter, iter, h, Option.bind_none, Option.bind_some, h]
      | some b =>
          rw [iter, iter, h, Option.bind_some, Option.bind_some, h, iter]
  | succ n ih =>
      rw [iter, iter]
      cases next a with
      | none => rfl
      | some b => exact ih b

/-- A state on a cycle has a successor on it. -/
theorem not_ends_of_cycle
    (h : Relation.TransGen (Steps next) b b) : ¬ Ends next b := by
  rintro ⟨n, hn⟩
  induction n generalizing b with
  | zero => cases hn
  | succ n ih =>
      obtain ⟨c, hstep, hback⟩ := Relation.TransGen.head'_iff.mp h
      rw [iter, hstep] at hn
      refine ih ?_ hn
      exact Relation.TransGen.tail' hback hstep

theorem reaches_of_iter
    {n m : ℕ} {c : α} (hb : iter next n a = some b)
    (hc : iter next (n + m) a = some c) :
    Relation.ReflTransGen (Steps next) b c := by
  induction m generalizing c with
  | zero =>
      cases hb.symm.trans hc
      exact Relation.ReflTransGen.refl
  | succ m ih =>
      rw [← Nat.add_assoc, iter_succ] at hc
      obtain ⟨d, hd, hstep⟩ := Option.bind_eq_some_iff.mp hc
      exact (ih hd).tail hstep

/-- A loop over finitely many states ends unless it runs into a cycle. -/
theorem ends_iff
    (hfinite : {b | ∃ a, next a = some b}.Finite) (a : α) :
    Ends next a ↔ ¬ Cyclic next a := by
  constructor
  · rintro hends ⟨b, hreach, hcycle⟩
    exact not_ends_of_cycle hcycle ((ends_of_reaches hreach).mp hends)
  · intro hcycle
    by_contra hends
    have hsome : ∀ n, ∃ b, iter next n a = some b := fun n =>
      Option.ne_none_iff_exists'.mp fun hnone => hends ⟨n, hnone⟩
    choose state hstate using hsome
    have hentered : ∀ n, state (n + 1) ∈ {b | ∃ a, next a = some b} := by
      intro n
      have hnext := hstate (n + 1)
      rw [iter_succ, hstate n] at hnext
      exact ⟨state n, hnext⟩
    obtain ⟨n, m, hlt, heq⟩ :=
      hfinite.exists_lt_map_eq_of_forall_mem hentered
    refine hcycle ⟨state (n + 1), ?_, ?_⟩
    · have hzero : iter next (0 + (n + 1)) a = some (state (n + 1)) := by
        rw [Nat.zero_add]
        exact hstate (n + 1)
      exact reaches_of_iter (n := 0) rfl hzero
    · have hsplit : n + 2 + (m - n - 1) = m + 1 := by omega
      have hstep : Steps next (state (n + 1)) (state (n + 2)) := by
        have hnext := hstate (n + 2)
        rw [iter_succ, hstate (n + 1)] at hnext
        exact hnext
      have hlater : iter next (n + 2 + (m - n - 1)) a =
          some (state (m + 1)) := by
        rw [hsplit]
        exact hstate (m + 1)
      have hback : Relation.ReflTransGen (Steps next) (state (n + 2))
          (state (m + 1)) :=
        reaches_of_iter (hstate (n + 2)) hlater
      rw [← heq] at hback
      exact Relation.TransGen.head' hstep hback

end Loops
