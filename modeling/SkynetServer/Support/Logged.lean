import Mathlib.Data.List.Basic

/-!
# Computations that keep a log

A computation returns a value or fails, and logs what it does on the way.  The
events of the log are fine or not, which the computation itself cannot tell.

A specification says what a computation returns as long as everything that it
logs is fine, or that it logs something that is not.  Computations and
specifications are put together side by side.
-/

namespace Logged

universe u v w

/-- A result and the events that were logged. -/
structure Run (ε : Type v) (φ : Type w) (α : Type u) where
  result : Except φ α
  log : List ε

variable {ε : Type v} {φ : Type w} {α β γ δ : Type u}

namespace Run

/-- Go on with the value. -/
def bind (x : Run ε φ α) (f : α → Run ε φ β) : Run ε φ β :=
  match x.result with
  | .ok a => ⟨(f a).result, x.log ++ (f a).log⟩
  | .error e => ⟨.error e, x.log⟩

instance : Monad (Run ε φ) where
  pure a := ⟨.ok a, []⟩
  bind := Run.bind

theorem bind_eq (x : Run ε φ α) (f : α → Run ε φ β) :
    x >>= f = x.bind f := rfl

theorem pure_bind (a : α) (f : α → Run ε φ β) :
    (pure a >>= f : Run ε φ β) = f a := rfl

end Run

/-- Log an event. -/
def note (e : ε) : Run ε φ PUnit.{u + 1} := ⟨.ok ⟨⟩, [e]⟩

def fail (e : φ) : Run ε φ α := ⟨.error e, []⟩

/-- How a specification ends without a value: the computation fails, or it logs
an event that is not fine. -/
inductive Stop (φ : Type w) where
  | fails (e : φ)
  | breaks
  deriving DecidableEq

/-- An event is not fine. -/
def Breaks (fine : ε → Prop) (x : Run ε φ α) : Prop := ∃ e ∈ x.log, ¬fine e

/-- The computation does what the specification says, with results that are
related. -/
def Matches
    (fine : ε → Prop) (R : β → α → Prop) (x : Run ε φ α) :
    Except (Stop φ) β → Prop
  | .ok b => (∀ e ∈ x.log, fine e) ∧ ∃ a, x.result = .ok a ∧ R b a
  | .error (.fails e) => (∀ e ∈ x.log, fine e) ∧ x.result = .error e
  | .error .breaks => Breaks fine x

section Breaks

variable {fine : ε → Prop}

/-- A part that logs an event that is not fine decides everything. -/
theorem Breaks.bind
    {x : Run ε φ α} (h : Breaks fine x) (f : α → Run ε φ β) :
    Breaks fine (x >>= f) := by
  obtain ⟨e, he, hbad⟩ := h
  refine ⟨e, ?_, hbad⟩
  rw [Run.bind_eq, Run.bind]
  split
  · exact List.mem_append_left _ he
  · exact he

theorem breaks_note {e : ε} (he : ¬fine e) :
    Breaks fine (note e : Run ε φ PUnit.{u + 1}) :=
  ⟨e, List.mem_singleton_self e, he⟩

end Breaks

section Returns

variable {P : α → Prop} {Q : β → Prop} {x : Run ε φ α} {f : α → Run ε φ β}

theorem run_ok {c : β} (h : (x >>= f).result = .ok c) :
    ∃ a, x.result = .ok a ∧ (f a).result = .ok c := by
  rw [Run.bind_eq, Run.bind] at h
  split at h
  · rename_i a ha
    exact ⟨a, ha, h⟩
  · cases h

theorem result_bind {a : α} (h : x.result = .ok a) :
    (x >>= f).result = (f a).result := by
  rw [Run.bind_eq, Run.bind, h]

/-- Every value that is returned has the property. -/
def Returns (P : α → Prop) (x : Run ε φ α) : Prop :=
  ∀ a, x.result = .ok a → P a

theorem Returns.pure {a : α} (h : P a) :
    Returns P (Pure.pure a : Run ε φ α) := by
  intro b hb
  cases hb
  exact h

theorem Returns.fail (e : φ) : Returns P (Logged.fail e : Run ε φ α) :=
  fun _ h => by cases h

theorem Returns.bind (h : ∀ a, Returns Q (f a)) : Returns Q (x >>= f) := by
  intro b hb
  obtain ⟨a, -, ha⟩ := run_ok hb
  exact h a b ha

/-- The value of the first part has a property of its own. -/
theorem Returns.bind_of (hx : Returns P x) (h : ∀ a, P a → Returns Q (f a)) :
    Returns Q (x >>= f) := by
  intro b hb
  obtain ⟨a, hresult, ha⟩ := run_ok hb
  exact h a (hx a hresult) b ha

end Returns

namespace Matches

variable {fine : ε → Prop} {R : β → α → Prop} {S : δ → γ → Prop}

theorem pure {a : α} {b : β} (h : R b a) :
    Matches fine R (Pure.pure a : Run ε φ α) (.ok b) :=
  ⟨fun _ he => (List.not_mem_nil he).elim, a, rfl, h⟩

theorem fail (e : φ) :
    Matches fine R (Logged.fail e : Run ε φ α) (.error (.fails e)) :=
  ⟨fun _ he => (List.not_mem_nil he).elim, rfl⟩

/-- A part that has a result takes no part in the specification. -/
theorem ok_bind
    {x : Run ε φ α} {b : β} {f : α → Run ε φ γ} {spec : Except (Stop φ) δ}
    (h : Matches fine R x (.ok b))
    (hf : ∀ a, R b a → Matches fine S (f a) spec) :
    Matches fine S (x >>= f) spec := by
  obtain ⟨hlog, a, hresult, hR⟩ := h
  have hrest := hf a hR
  rw [Run.bind_eq, Run.bind, hresult]
  cases spec with
  | ok d =>
      obtain ⟨hlog', hd⟩ := hrest
      refine ⟨fun e he => ?_, hd⟩
      exact (List.mem_append.mp he).elim (hlog e) (hlog' e)
  | error s =>
      cases s with
      | fails e =>
          obtain ⟨hlog', hresult'⟩ := hrest
          refine ⟨fun e he => ?_, hresult'⟩
          exact (List.mem_append.mp he).elim (hlog e) (hlog' e)
      | breaks =>
          obtain ⟨e, he, hbad⟩ := hrest
          exact ⟨e, List.mem_append_right _ he, hbad⟩

theorem bind
    {x : Run ε φ α} {spec : Except (Stop φ) β} {f : α → Run ε φ γ}
    {g : β → Except (Stop φ) δ} (h : Matches fine R x spec)
    (hf : ∀ b a, R b a → Matches fine S (f a) (g b)) :
    Matches fine S (x >>= f) (spec >>= g) := by
  cases spec with
  | ok b => exact h.ok_bind fun a => hf b a
  | error s =>
      cases s with
      | fails e =>
          obtain ⟨hlog, hresult⟩ := h
          show Matches fine S (x.bind f) (.error (.fails e))
          rw [Run.bind, hresult]
          exact ⟨hlog, rfl⟩
      | breaks => exact Breaks.bind h f

theorem result
    {x : Run ε φ α} {b : β} (h : Matches fine R x (.ok b)) :
    ∃ a, x.result = .ok a ∧ R b a := h.2

/-- What is known of the specified value. -/
theorem and_spec
    {x : Run ε φ α} {spec : Except (Stop φ) β} {P : β → Prop}
    (h : Matches fine R x spec) (hP : ∀ b, spec = .ok b → P b) :
    Matches fine (fun b a => R b a ∧ P b) x spec := by
  cases spec with
  | ok b =>
      obtain ⟨hlog, a, hresult, hR⟩ := h
      exact ⟨hlog, a, hresult, hR, hP b rfl⟩
  | error s =>
      cases s with
      | fails e | breaks => exact h

/-- A fine event is no concern of the specification. -/
theorem note_bind
    {e : ε} (he : fine e) {f : PUnit → Run ε φ γ}
    {spec : Except (Stop φ) δ} (h : Matches fine S (f ⟨⟩) spec) :
    Matches fine S (note e >>= f) spec := by
  have hnote : Matches fine (fun (_ : PUnit) (_ : PUnit) => True)
      (note e : Run ε φ PUnit) (.ok ⟨⟩) := by
    refine ⟨fun e' he' => ?_, ⟨⟩, rfl, trivial⟩
    rw [List.mem_singleton.mp he']
    exact he
  exact hnote.ok_bind fun _ _ => h

end Matches

end Logged
