import Mathlib.Data.List.Basic

/-!
# Streams of coded frames

A stream holds the codes of a list of frames one behind the other, and is read
up to an arbitrary place.  `complete` gives the frames whose code ends before
that place; what is read later only adds the frames that it completes.
-/

namespace Frames

variable {α β : Type*} (code : α → List β)

/-- The codes of a list of frames. -/
def stream (fs : List α) : List β := fs.flatMap code

/-- The frames whose code ends within the first `n` elements of the stream. -/
def complete : List α → ℕ → List α
  | [], _ => []
  | f :: fs, n =>
    if (code f).length ≤ n then f :: complete fs (n - (code f).length) else []

variable {code}

@[simp] theorem stream_nil : stream code [] = [] := rfl

@[simp] theorem stream_cons (f : α) (fs : List α) :
    stream code (f :: fs) = code f ++ stream code fs := rfl

theorem stream_append (fs fs' : List α) :
    stream code (fs ++ fs') = stream code fs ++ stream code fs' :=
  List.flatMap_append

theorem complete_cons
    {f : α} {n : ℕ} (fs : List α) (h : (code f).length ≤ n) :
    complete code (f :: fs) n =
      f :: complete code fs (n - (code f).length) := by
  rw [complete, if_pos h]

theorem complete_cons_of_lt
    {f : α} {n : ℕ} (fs : List α) (h : n < (code f).length) :
    complete code (f :: fs) n = [] := by
  rw [complete, if_neg (Nat.not_le.mpr h)]

theorem complete_prefix (fs : List α) (n : ℕ) :
    complete code fs n <+: fs := by
  induction fs generalizing n with
  | nil => exact List.prefix_rfl
  | cons f fs ih =>
      rcases Nat.lt_or_ge n (code f).length with hlt | hle
      · rw [complete_cons_of_lt fs hlt]
        exact List.nil_prefix
      · rw [complete_cons fs hle]
        exact List.cons_prefix_cons.mpr ⟨rfl, ih _⟩

/-- The frames of a stream and the frames that are not complete. -/
theorem complete_append_drop (fs : List α) (n : ℕ) :
    complete code fs n ++ fs.drop (complete code fs n).length = fs := by
  have hprefix : complete code fs n <+: fs := complete_prefix fs n
  conv_rhs => rw [← List.take_append_drop (complete code fs n).length fs]
  rw [← List.prefix_iff_eq_take.mp hprefix]

/-- Behind complete frames, only the frames that follow are to be cut. -/
theorem complete_stream_append (fs rest : List α) (n : ℕ) :
    complete code (fs ++ rest) ((stream code fs).length + n) =
      fs ++ complete code rest n := by
  induction fs with
  | nil => rw [stream_nil, List.length_nil, Nat.zero_add]; rfl
  | cons f fs ih =>
      have hlen : (stream code (f :: fs)).length + n =
          (code f).length + ((stream code fs).length + n) := by
        rw [stream_cons, List.length_append, Nat.add_assoc]
      rw [hlen, List.cons_append, complete_cons _ (Nat.le_add_right _ _),
        Nat.add_sub_cancel_left, ih]
      rfl

/-- When no code is empty, there are not more complete frames than
elements. -/
theorem length_complete_le
    {fs : List α} (h : ∀ f ∈ fs, code f ≠ []) (n : ℕ) :
    (complete code fs n).length ≤ n := by
  induction fs generalizing n with
  | nil => exact Nat.zero_le n
  | cons f fs ih =>
      rcases Nat.lt_or_ge n (code f).length with hlt | hle
      · rw [complete_cons_of_lt fs hlt]
        exact Nat.zero_le n
      · have hpos : 0 < (code f).length :=
          List.length_pos_iff.mpr (h f (.head fs))
        have hrest := ih (fun f' hf' => h f' (.tail f hf'))
          (n - (code f).length)
        rw [complete_cons fs hle, List.length_cons]
        omega

end Frames
