import Mathlib.Data.List.Basic

/-!
# Runs of a system whose steps may fault

A system is a step function on its states.  Given a state and a label, the
step goes to a next state, is blocked because the label is not enabled there,
or faults: an assertion of the modelled program fails, or the program follows
a pointer that is not valid.  A label fixes everything the program does not
decide itself, so one list of labels is one interleaving.

Runs are collected by `Reaches`, which also carries a condition on every step
(the state before it and its label).  Invariants of all runs are obtained
from the single induction `Reaches.invariant`.
-/

namespace Transition

/-- Result of one step of a system with faults of type `φ`. -/
inductive Outcome (φ σ : Type*) where
  | next (s : σ)
  | blocked
  | fault (f : φ)

variable {φ σ ℓ : Type*}

namespace Outcome

variable {τ : Type*}

/-- Go on with the result. -/
def bind (o : Outcome φ σ) (f : σ → Outcome φ τ) : Outcome φ τ :=
  match o with
  | .next s => f s
  | .blocked => .blocked
  | .fault e => .fault e

/-- The result has the property, and only the faults in `ok` are possible. -/
def Ensures (ok : φ → Prop) (P : σ → Prop) : Outcome φ σ → Prop
  | .next s => P s
  | .blocked => True
  | .fault e => ok e

variable {ok : φ → Prop} {P Q : σ → Prop} {R : τ → Prop} {o : Outcome φ σ}

theorem Ensures.bind
    {f : σ → Outcome φ τ} (h : o.Ensures ok P)
    (hf : ∀ s, P s → (f s).Ensures ok R) : (o.bind f).Ensures ok R := by
  cases o with
  | next s => exact hf s h
  | blocked => trivial
  | fault e => exact h

theorem Ensures.mono (h : o.Ensures ok P) (hPQ : ∀ s, P s → Q s) :
    o.Ensures ok Q := by
  cases o with
  | next s => exact hPQ s h
  | blocked => trivial
  | fault e => exact h

/-- The result is a state which passes the test. -/
def passes (test : σ → Bool) : Outcome φ σ → Bool
  | .next s => test s
  | .blocked => false
  | .fault _ => false

theorem exists_of_passes
    {test : σ → Bool} (h : o.passes test = true) :
    ∃ s, o = .next s ∧ test s = true := by
  cases o with
  | next s => exact ⟨s, rfl, h⟩
  | blocked | fault e => cases h

end Outcome

/-- States reached from `s₀` by steps which all meet `ok`. -/
inductive Reaches
    (step : σ → ℓ → Outcome φ σ) (ok : σ → ℓ → Prop) (s₀ : σ) :
    σ → Prop
  | refl : Reaches step ok s₀ s₀
  | tail {s s' : σ} (l : ℓ) :
      Reaches step ok s₀ s → ok s l → step s l = .next s' →
        Reaches step ok s₀ s'

/-- The condition met by every step. -/
def anyStep : σ → ℓ → Prop := fun _ _ => True

section Runs

variable {step : σ → ℓ → Outcome φ σ} {ok : σ → ℓ → Prop} {s₀ s s' : σ}

/-- A property which holds initially and is kept by every admissible step
holds in every reached state. -/
theorem Reaches.invariant
    (h : Reaches step ok s₀ s) (I : σ → Prop) (hinit : I s₀)
    (hstep : ∀ s l s', I s → ok s l → step s l = .next s' → I s') :
    I s := by
  induction h with
  | refl => exact hinit
  | tail l _ hok hs ih => exact hstep _ l _ ih hok hs

theorem Reaches.trans
    (h : Reaches step ok s₀ s) (h' : Reaches step ok s s') :
    Reaches step ok s₀ s' := by
  induction h' with
  | refl => exact h
  | tail l _ hok hs ih => exact ih.tail l hok hs

/-- Weakening the condition on the steps keeps a run a run. -/
theorem Reaches.mono
    {ok' : σ → ℓ → Prop} (hok : ∀ s l, ok s l → ok' s l)
    (h : Reaches step ok s₀ s) :
    Reaches step ok' s₀ s := by
  induction h with
  | refl => exact .refl
  | tail l _ hl hs ih => exact ih.tail l (hok _ _ hl) hs

/-- A property which every step from it ensures holds in every reached state,
and no other fault is possible. -/
theorem Reaches.ensures
    {bad : φ → Prop} (h : Reaches step ok s₀ s) (I : σ → Prop) (hinit : I s₀)
    (hstep : ∀ s l, I s → ok s l → (step s l).Ensures bad I) :
    I s := by
  refine h.invariant I hinit fun t l t' ht hok hs => ?_
  have hensures := hstep t l ht hok
  rw [hs] at hensures
  exact hensures

end Runs

/-- Execute a list of labels one after the other. -/
def exec (step : σ → ℓ → Outcome φ σ) : σ → List ℓ → Outcome φ σ
  | s, [] => .next s
  | s, l :: ls =>
    match step s l with
    | .next s' => exec step s' ls
    | .blocked => .blocked
    | .fault f => .fault f

theorem exec_cons
    {step : σ → ℓ → Outcome φ σ} {s s' : σ} {l : ℓ}
    (h : step s l = .next s') (ls : List ℓ) :
    exec step s (l :: ls) = exec step s' ls := by
  rw [exec, h]

theorem exec_append
    {step : σ → ℓ → Outcome φ σ} {s s' : σ} {ls : List ℓ}
    (h : exec step s ls = .next s') (ls' : List ℓ) :
    exec step s (ls ++ ls') = exec step s' ls' := by
  induction ls generalizing s with
  | nil =>
      cases h
      rfl
  | cons l ls ih =>
      rw [exec] at h
      rw [List.cons_append, exec]
      split at h
      · rename_i t hs
        exact ih h
      · cases h
      · cases h

/-- A list of labels that executes to the end is a run. -/
theorem reaches_of_exec
    {step : σ → ℓ → Outcome φ σ} {s s' : σ} {ls : List ℓ}
    (h : exec step s ls = .next s') :
    Reaches step anyStep s s' := by
  induction ls generalizing s with
  | nil =>
      cases h
      exact .refl
  | cons l ls ih =>
      rw [exec] at h
      split at h
      · rename_i t hs
        exact Reaches.trans (.tail l .refl trivial hs) (ih h)
      · cases h
      · cases h

/-- A property of every state and the label of its step in the run of a list of
labels. -/
def EveryStep
    (step : σ → ℓ → Outcome φ σ) (s₀ : σ) (P : σ → ℓ → Prop) (ls : List ℓ) :
    Prop :=
  ∀ pre l post s, ls = pre ++ l :: post → exec step s₀ pre = .next s → P s l

theorem EveryStep.mono
    {step : σ → ℓ → Outcome φ σ} {s₀ : σ} {P Q : σ → ℓ → Prop} {ls : List ℓ}
    (hPQ : ∀ s, Reaches step anyStep s₀ s → ∀ l, P s l → Q s l)
    (h : EveryStep step s₀ P ls) : EveryStep step s₀ Q ls :=
  fun pre l post s hls hs =>
    hPQ s (reaches_of_exec hs) l (h pre l post s hls hs)

/-- Properties that agree in all reached states agree on all runs. -/
theorem everyStep_congr
    {step : σ → ℓ → Outcome φ σ} {s₀ : σ} {P Q : σ → ℓ → Prop} (ls : List ℓ)
    (hPQ : ∀ s, Reaches step anyStep s₀ s → ∀ l, P s l ↔ Q s l) :
    EveryStep step s₀ P ls ↔ EveryStep step s₀ Q ls :=
  ⟨.mono fun s hs l => (hPQ s hs l).1, .mono fun s hs l => (hPQ s hs l).2⟩

/-- A property of every state in the run of a list of labels. -/
def EveryState
    (step : σ → ℓ → Outcome φ σ) (s₀ : σ) (P : σ → Prop) (ls : List ℓ) : Prop :=
  ∀ pre post s, ls = pre ++ post → exec step s₀ pre = .next s → P s

section Invariant

variable {step : σ → ℓ → Outcome φ σ} {s₀ : σ}

theorem everyStep_cons
    {P : σ → ℓ → Prop} {l : ℓ} {ls : List ℓ} :
    EveryStep step s₀ P (l :: ls) ↔
      P s₀ l ∧ ∀ s, step s₀ l = .next s → EveryStep step s P ls := by
  constructor
  · intro h
    refine ⟨h [] l ls s₀ rfl rfl, fun s hs pre l' post t hls ht => ?_⟩
    refine h (l :: pre) l' post t ?_ ?_
    · rw [hls, List.cons_append]
    · rw [exec_cons hs, ht]
  · rintro ⟨hhead, htail⟩ pre l' post t hls ht
    cases pre with
    | nil =>
        cases hls
        cases ht
        exact hhead
    | cons a pre =>
        cases hls
        rw [exec] at ht
        split at ht
        · rename_i s hs
          exact htail s hs pre l' post t rfl ht
        · cases ht
        · cases ht

theorem everyState_nil {P : σ → Prop} :
    EveryState step s₀ P [] ↔ P s₀ := by
  constructor
  · exact fun h => h [] [] s₀ rfl rfl
  · intro h pre post t hls ht
    obtain ⟨rfl, -⟩ := List.append_eq_nil_iff.mp hls.symm
    cases ht
    exact h

theorem everyState_cons
    {P : σ → Prop} {l : ℓ} {ls : List ℓ} :
    EveryState step s₀ P (l :: ls) ↔
      P s₀ ∧ ∀ s, step s₀ l = .next s → EveryState step s P ls := by
  constructor
  · intro h
    refine ⟨h [] (l :: ls) s₀ rfl rfl, fun s hs pre post t hls ht => ?_⟩
    refine h (l :: pre) post t ?_ ?_
    · rw [hls, List.cons_append]
    · rw [exec_cons hs, ht]
  · rintro ⟨hhead, htail⟩ pre post t hls ht
    cases pre with
    | nil =>
        cases ht
        exact hhead
    | cons a pre =>
        cases hls
        rw [exec] at ht
        split at ht
        · rename_i s hs
          exact htail s hs pre post t rfl ht
        · cases ht
        · cases ht

/-- Two conditions that agree in the states with an invariant, which is kept by
the steps that meet the first one, agree on all runs. -/
theorem everyStep_iff
    {ok P : σ → ℓ → Prop} (I : σ → Prop) (hinit : I s₀)
    (hstep : ∀ s l s', I s → ok s l → step s l = .next s' → I s')
    (hiff : ∀ s l, I s → (ok s l ↔ P s l)) (ls : List ℓ) :
    EveryStep step s₀ ok ls ↔ EveryStep step s₀ P ls := by
  induction ls generalizing s₀ with
  | nil =>
      constructor
      · intro _ pre l post s hls
        simp at hls
      · intro _ pre l post s hls
        simp at hls
  | cons l ls ih =>
      rw [everyStep_cons, everyStep_cons, hiff s₀ l hinit]
      refine and_congr_right fun hhead => forall_congr' fun s => ?_
      refine forall_congr' fun hs => ih ?_
      exact hstep s₀ l s hinit ((hiff s₀ l hinit).mpr hhead) hs

/-- Every step of a run meets a condition if and only if every state of the run
has a property, when the steps that meet it keep an invariant with the property,
and a step that does not leads from the invariant to a state without it. -/
theorem everyStep_iff_everyState
    {ok : σ → ℓ → Prop} {P : σ → Prop} (I : σ → Prop) (hinit : I s₀)
    (hP : ∀ s, I s → P s)
    (hstep : ∀ s l s', I s → ok s l → step s l = .next s' → I s')
    (hbad : ∀ s l, I s → ¬ok s l → ∃ s', step s l = .next s' ∧ ¬P s')
    (ls : List ℓ) :
    EveryStep step s₀ ok ls ↔ EveryState step s₀ P ls := by
  induction ls generalizing s₀ with
  | nil =>
      rw [everyState_nil]
      refine ⟨fun _ => hP s₀ hinit, fun _ pre l post s hls => ?_⟩
      simp at hls
  | cons l ls ih =>
      rw [everyStep_cons, everyState_cons]
      constructor
      · rintro ⟨hok, htail⟩
        refine ⟨hP s₀ hinit, fun s hs => ?_⟩
        exact (ih (hstep s₀ l s hinit hok hs)).mp (htail s hs)
      · rintro ⟨-, htail⟩
        have hok : ok s₀ l := by
          by_contra hno
          obtain ⟨s', hs', hbad⟩ := hbad s₀ l hinit hno
          exact hbad (htail s' hs' [] ls s' rfl rfl)
        refine ⟨hok, fun s hs => ?_⟩
        exact (ih (hstep s₀ l s hinit hok hs)).mpr (htail s hs)

/-- A property that a step keeps exactly when it meets a condition, and that no
step brings back, holds at the end of a run if and only if every step of the run
meets the condition. -/
theorem everyStep_iff_last
    {ok : σ → ℓ → Prop} {P : σ → Prop} (I : σ → Prop)
    (hinit : I s₀) (hfirst : P s₀)
    (hkeep : ∀ s l s', I s → step s l = .next s' → I s')
    (hstep : ∀ s l s', I s → step s l = .next s' → (P s' ↔ P s ∧ ok s l))
    {ls : List ℓ} {s : σ} (h : exec step s₀ ls = .next s) :
    P s ↔ EveryStep step s₀ ok ls := by
  suffices hgen : ∀ t, I t → exec step t ls = .next s →
      (P s ↔ P t ∧ EveryStep step t ok ls) by
    rw [hgen s₀ hinit h]
    exact and_iff_right hfirst
  clear h hinit hfirst
  induction ls with
  | nil =>
      intro t ht hexec
      cases hexec
      refine ⟨fun hP => ⟨hP, fun pre l post u hls => ?_⟩, And.left⟩
      simp at hls
  | cons l ls ih =>
      intro t ht hexec
      rw [exec] at hexec
      split at hexec
      · rename_i u hu
        rw [ih u (hkeep t l u ht hu) hexec, hstep t l u ht hu, everyStep_cons,
          and_assoc]
        refine and_congr_right fun _ => and_congr_right fun _ => ?_
        constructor
        · intro hrest v hv
          rw [hu] at hv
          cases hv
          exact hrest
        · exact fun hrest => hrest u hu
      · cases hexec
      · cases hexec

end Invariant

/-- Execute a list of labels, as long as every step passes a test. -/
def execWhile (step : σ → ℓ → Outcome φ σ) (test : σ → ℓ → Bool) :
    σ → List ℓ → Outcome φ σ
  | s, [] => .next s
  | s, l :: ls =>
    if test s l then
      match step s l with
      | .next s' => execWhile step test s' ls
      | .blocked => .blocked
      | .fault f => .fault f
    else .blocked

/-- A list of labels that executes to the end is a run with the tested
condition. -/
theorem reaches_of_execWhile
    {step : σ → ℓ → Outcome φ σ} {test : σ → ℓ → Bool} {ok : σ → ℓ → Prop}
    (hok : ∀ s l, test s l = true → ok s l) {s s' : σ} {ls : List ℓ}
    (h : execWhile step test s ls = .next s') : Reaches step ok s s' := by
  induction ls generalizing s with
  | nil =>
      cases h
      exact .refl
  | cons l ls ih =>
      rw [execWhile] at h
      split at h
      · rename_i htest
        split at h
        · rename_i t hs
          exact Reaches.trans (.tail l .refl (hok s l htest) hs) (ih h)
        · cases h
        · cases h
      · cases h

/-- The steps of a list of labels that executes to the end have the tested
condition. -/
theorem everyStep_of_execWhile
    {step : σ → ℓ → Outcome φ σ} {test : σ → ℓ → Bool} {P : σ → ℓ → Prop}
    (hP : ∀ s l, test s l = true → P s l) {s s' : σ} {ls : List ℓ}
    (h : execWhile step test s ls = .next s') :
    EveryStep step s P ls ∧ exec step s ls = .next s' := by
  induction ls generalizing s with
  | nil =>
      refine ⟨fun pre l post t hls => ?_, h⟩
      simp at hls
  | cons l ls ih =>
      rw [execWhile] at h
      split at h
      · rename_i htest
        split at h
        · rename_i t hs
          obtain ⟨hsteps, hexec⟩ := ih h
          refine ⟨everyStep_cons.mpr ⟨hP s l htest, fun u hu => ?_⟩, ?_⟩
          · rw [hs] at hu
            cases hu
            exact hsteps
          · rw [exec_cons hs, hexec]
        · cases h
        · cases h
      · cases h

end Transition
