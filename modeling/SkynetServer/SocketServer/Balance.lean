import SkynetServer.SocketServer.Server

/-!
# The account of the send lists

`wb_size` counts the bytes that the nodes of both send lists still have to
send, and no node of the low list has been sent in part.  Every change that
the functions of the socket server make to the lists keeps this, with one
exception: the loop of `send_list` may leave a part of the first node of the
low list, until `raise_uncomplete` has moved the node.
-/

namespace SkynetServer.SocketServer

open Transition

variable {τ : Type*}

/-- The bytes that a list of nodes still has to send. -/
def pending : List (WriteBuffer τ) → ℤ
  | [] => 0
  | b :: l => (b.sz : ℤ) + pending l

@[simp] theorem pending_nil : pending ([] : List (WriteBuffer τ)) = 0 := rfl

@[simp] theorem pending_cons (b : WriteBuffer τ) (l : List (WriteBuffer τ)) :
    pending (b :: l) = b.sz + pending l :=
  rfl

@[simp] theorem pending_append (l l' : List (WriteBuffer τ)) :
    pending (l ++ l') = pending l + pending l' := by
  induction l with
  | nil => simp
  | cons b l ih =>
      rw [List.cons_append, pending_cons, pending_cons, ih]
      omega

/-- `n` bytes of a node have been sent. -/
def WriteBuffer.advance (b : WriteBuffer τ) (n : ℕ) : WriteBuffer τ :=
  { b with offset := b.offset + n }

theorem WriteBuffer.sz_advance
    {b : WriteBuffer τ} {n : ℕ} (h : n < b.sz) :
    ((b.advance n).sz : ℤ) = b.sz - n := by
  have hsz : (b.advance n).sz = b.sz - n := by
    simp [advance, sz, Nat.sub_sub]
  rw [hsz]
  omega

namespace Socket

/-- `wb_size` is the number of bytes in both lists. -/
def Counted (k : Socket τ) : Prop := k.wbSize = pending k.high + pending k.low

/-- The account is right, and the low list has not been touched. -/
structure Balanced (k : Socket τ) : Prop where
  counted : k.Counted
  untouched : ∀ b ∈ k.low, b.offset = 0

/-- Nodes of a list are sent from its front: whole nodes, and then a part of
one. -/
inductive Sends (low : Bool) : Socket τ → Socket τ → Prop
  | refl (k : Socket τ) : Sends low k k
  | whole {k k' : Socket τ} {b : WriteBuffer τ} {rest : List (WriteBuffer τ)}
      (hlist : k.list low = b :: rest)
      (h : Sends low (k.setList low rest b.sz) k') : Sends low k k'
  | part {k : Socket τ} {b : WriteBuffer τ} {rest : List (WriteBuffer τ)}
      {n : ℕ} (hlist : k.list low = b :: rest) (hn : n < b.sz) :
      Sends low k (k.setList low (b.advance n :: rest) n)

section Changes

variable {k k' : Socket τ} {low : Bool} {b : WriteBuffer τ}
  {l rest : List (WriteBuffer τ)} {n : ℕ}

theorem Balanced.lowUncomplete (h : k.Balanced) : k.lowUncomplete = false := by
  rw [Socket.lowUncomplete]
  split
  · rfl
  · rename_i b rest hlow
    have hb : b.offset = 0 := h.untouched b (by rw [hlow]; exact List.mem_cons_self)
    simp [hb]

theorem Balanced.append (h : k.Balanced) (hb : b.offset = 0) :
    (k.append low b).Balanced := by
  have hcounted := h.counted
  unfold Counted at hcounted
  cases low with
  | false =>
      refine ⟨?_, h.untouched⟩
      simp only [Counted, Socket.append, Bool.false_eq_true, if_false,
        pending_append, pending_cons, pending_nil]
      omega
  | true =>
      refine ⟨?_, fun c hc => ?_⟩
      · simp only [Counted, Socket.append, if_true, pending_append,
          pending_cons, pending_nil]
        omega
      · rcases List.mem_append.mp hc with hc | hc
        · exact h.untouched c hc
        · rw [List.mem_singleton.mp hc, hb]

theorem Balanced.takeDw (h : k.Balanced) : k.takeDw.Balanced := by
  rw [Socket.takeDw]
  split
  · exact h
  · have hcounted := h.counted
    unfold Counted at hcounted
    refine ⟨?_, h.untouched⟩
    simp only [Counted, pending_cons]
    omega

theorem list_setList (k : Socket τ) (low : Bool) (l : List (WriteBuffer τ))
    (n : ℕ) : (k.setList low l n).list low = l := by
  cases low <;> rfl

theorem list_not_setList (k : Socket τ) (low : Bool)
    (l : List (WriteBuffer τ)) (n : ℕ) :
    (k.setList low l n).list (!low) = k.list (!low) := by
  cases low <;> rfl

theorem counted_iff (k : Socket τ) (low : Bool) :
    k.Counted ↔
      k.wbSize = pending (k.list low) + pending (k.list (!low)) := by
  cases low with
  | false => exact Iff.rfl
  | true => rw [Counted, Int.add_comm]; exact Iff.rfl

theorem wbSize_setList (k : Socket τ) (low : Bool)
    (l : List (WriteBuffer τ)) (n : ℕ) :
    (k.setList low l n).wbSize = k.wbSize - n := by
  cases low <;> rfl

/-- The bytes that leave a list leave the account. -/
theorem Counted.setList
    (h : k.Counted) (hl : pending (k.list low) = n + pending l) :
    (k.setList low l n).Counted := by
  rw [counted_iff k low] at h
  rw [counted_iff _ low, wbSize_setList, list_setList, list_not_setList]
  omega

theorem Sends.counted (hsends : Sends low k k') (h : k.Counted) :
    k'.Counted := by
  induction hsends with
  | refl k => exact h
  | whole hlist _ ih =>
      exact ih (h.setList (by rw [hlist, pending_cons]))
  | part hlist hn =>
      refine h.setList ?_
      rw [hlist, pending_cons, pending_cons, WriteBuffer.sz_advance hn]
      omega

theorem Sends.list_not (hsends : Sends low k k') :
    k'.list (!low) = k.list (!low) := by
  induction hsends with
  | refl k => rfl
  | whole hlist _ ih => rw [ih, list_not_setList]
  | part hlist hn => rw [list_not_setList]

theorem Sends.type (hsends : Sends low k k') : k'.type = k.type := by
  have htype : ∀ (k : Socket τ) (l : List (WriteBuffer τ)) (n : ℕ),
      (k.setList low l n).type = k.type := fun k l n => by cases low <;> rfl
  induction hsends with
  | refl k => rfl
  | whole hlist _ ih => rw [ih, htype]
  | part hlist hn => rw [htype]

/-- All nodes but the first one are left as they were. -/
theorem Sends.untouched
    (hsends : Sends low k k') (h : ∀ b ∈ k.list low, b.offset = 0) :
    ∀ b ∈ (k'.list low).tail, b.offset = 0 := by
  induction hsends with
  | refl k => exact fun b hb => h b (List.mem_of_mem_tail hb)
  | whole hlist _ ih =>
      refine ih fun b hb => h b ?_
      rw [list_setList] at hb
      rw [hlist]
      exact List.mem_cons_of_mem _ hb
  | part hlist hn =>
      rw [list_setList, List.tail_cons]
      intro b hb
      exact h b (hlist ▸ List.mem_cons_of_mem _ hb)

/-- The high list is sent. -/
theorem Balanced.sends_high (h : k.Balanced) (hsends : Sends false k k') :
    k'.Balanced := by
  refine ⟨hsends.counted h.counted, ?_⟩
  rw [show k'.low = k.low from hsends.list_not]
  exact h.untouched

/-- The low list is sent, and its first node has not been sent in part. -/
theorem Balanced.sends_low
    (h : k.Balanced) (hsends : Sends true k k')
    (hcomplete : k'.lowUncomplete = false) : k'.Balanced := by
  refine ⟨hsends.counted h.counted, fun b hb => ?_⟩
  have htail : ∀ b ∈ k'.low.tail, b.offset = 0 := hsends.untouched h.untouched
  rw [Socket.lowUncomplete] at hcomplete
  split at hcomplete
  · rename_i hlow
    rw [hlow] at hb
    cases hb
  · rename_i c rest hlow
    rw [hlow] at hb htail
    rcases List.mem_cons.mp hb with rfl | hb
    · simpa using hcomplete
    · exact htail b hb

/-- The low list is sent, and its first node moves to the empty high list. -/
theorem Balanced.raise
    (h : k.Balanced) (hsends : Sends true k k') (hhigh : k'.high = [])
    (hlow : k'.low = b :: rest) :
    ({ k' with high := [b], low := rest } : Socket τ).Balanced := by
  have hcounted : k'.Counted := hsends.counted h.counted
  have htail : ∀ b ∈ k'.low.tail, b.offset = 0 := hsends.untouched h.untouched
  rw [Counted, hhigh, hlow, pending_nil, pending_cons] at hcounted
  rw [hlow] at htail
  refine ⟨?_, htail⟩
  simp only [Counted, pending_cons, pending_nil]
  omega

/-- Step 4 of `send_buffer_` finds an empty account. -/
theorem Balanced.wbSize_eq_zero (h : k.Balanced) (hempty : k.sendBufferEmpty) :
    k.wbSize = 0 := by
  rw [sendBufferEmpty, Bool.and_eq_true, List.isEmpty_iff,
    List.isEmpty_iff] at hempty
  have hcounted := h.counted
  rw [Counted, hempty.1, hempty.2] at hcounted
  exact hcounted

end Changes

/-! ## The socket thread -/

end Socket

end SkynetServer.SocketServer
