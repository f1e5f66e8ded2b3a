import Mathlib.Data.List.Basic

/-!
# Computations that may fail

What an outcome says of the parts of a computation, and an invariant of the part
of a list that was folded so far.
-/

namespace Fallible

section Parts

variable {ε α β : Type*} {x : Except ε α} {e : ε} {b : β}

theorem map_ok_iff {f : α → β} :
    x.map f = .ok b ↔ ∃ a, x = .ok a ∧ f a = b := by
  cases x with
  | error e' =>
      constructor
      · intro h
        cases h
      · rintro ⟨a, h, -⟩
        cases h
  | ok a =>
      constructor
      · intro h
        exact ⟨a, rfl, Except.ok.inj h⟩
      · rintro ⟨a', h, rfl⟩
        cases h
        rfl

theorem map_error_iff {f : α → β} : x.map f = .error e ↔ x = .error e := by
  cases x with
  | error e' =>
      constructor
      · intro h
        exact congrArg Except.error (Except.error.inj h)
      · intro h
        exact congrArg Except.error (Except.error.inj h)
  | ok a =>
      constructor
      · intro h
        cases h
      · intro h
        cases h

theorem bind_ok_iff {f : α → Except ε β} :
    x.bind f = .ok b ↔ ∃ a, x = .ok a ∧ f a = .ok b := by
  cases x with
  | error e' =>
      constructor
      · intro h
        cases h
      · rintro ⟨a, h, -⟩
        cases h
  | ok a =>
      constructor
      · intro h
        exact ⟨a, rfl, h⟩
      · rintro ⟨a', h, hf⟩
        cases h
        exact hf

theorem map_bind {γ : Type*} (f : α → Except ε β) (g : β → γ) :
    (x.bind f).map g = x.bind fun a => (f a).map g := by
  cases x with
  | error e' | ok a => rfl

theorem bind_error {f : α → Except ε β} (h : x.bind f = .error e) :
    x = .error e ∨ ∃ a, x = .ok a ∧ f a = .error e := by
  cases x with
  | error e' => exact .inl (congrArg Except.error (Except.error.inj h))
  | ok a => exact .inr ⟨a, rfl, h⟩

end Parts

variable {ε σ α : Type*} {step : σ → α → Except ε σ}
variable {P : List α → σ → Prop} {done rest as : List α} {s s' : σ} {e : ε}

theorem foldlM_from
    (hstep : ∀ done a rest s s', as = done ++ a :: rest → P done s →
      step s a = .ok s' → P (done ++ [a]) s')
    (has : as = done ++ rest) (hs : P done s)
    (h : rest.foldlM step s = .ok s') : P as s' := by
  induction rest generalizing done s with
  | nil =>
      cases h
      rw [has, List.append_nil]
      exact hs
  | cons a rest ih =>
      rw [List.foldlM_cons] at h
      cases ha : step s a with
      | error e =>
          rw [ha] at h
          cases h
      | ok t =>
          rw [ha] at h
          refine ih ?_ (hstep done a rest s t has hs ha) h
          rw [has, List.append_assoc]
          rfl

/-- What every step keeps holds in the end. -/
theorem foldlM_ok
    (hstep : ∀ done a rest s s', as = done ++ a :: rest → P done s →
      step s a = .ok s' → P (done ++ [a]) s')
    (hs : P [] s) (h : as.foldlM step s = .ok s') : P as s' :=
  foldlM_from hstep rfl hs h

theorem foldlM_error_from
    (hstep : ∀ done a rest s s', as = done ++ a :: rest → P done s →
      step s a = .ok s' → P (done ++ [a]) s')
    (has : as = done ++ rest) (hs : P done s)
    (h : rest.foldlM step s = .error e) :
    ∃ done a rest s, as = done ++ a :: rest ∧ P done s ∧
      step s a = .error e := by
  induction rest generalizing done s with
  | nil => cases h
  | cons a rest ih =>
      rw [List.foldlM_cons] at h
      cases ha : step s a with
      | error e' =>
          rw [ha] at h
          cases h
          exact ⟨done, a, rest, s, has, hs, ha⟩
      | ok t =>
          rw [ha] at h
          refine ih ?_ (hstep done a rest s t has hs ha) h
          rw [has, List.append_assoc]
          rfl

/-- A fold fails where one of its steps does. -/
theorem foldlM_error
    (hstep : ∀ done a rest s s', as = done ++ a :: rest → P done s →
      step s a = .ok s' → P (done ++ [a]) s')
    (hs : P [] s) (h : as.foldlM step s = .error e) :
    ∃ done a rest s, as = done ++ a :: rest ∧ P done s ∧
      step s a = .error e :=
  foldlM_error_from hstep rfl hs h

end Fallible
