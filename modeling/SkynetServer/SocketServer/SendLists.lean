import SkynetServer.SocketServer.Balance
import SkynetServer.SocketServer.WriteLists
import Mathlib.Data.Bool.Basic

/-!
# The send lists of an open socket

The pointers and nodes of a socket represent two lists of nodes, and with them
a `Socket`.  Each function on the lists in memory does to this `Socket` what
`Slot.lean` says: nodes are appended, sent from the front, or moved from the
low to the high list.  So the account of the lists stays right.

While a list is sent, the pointer to its last node is not kept up; `send_list`
repairs it before it returns.
-/

namespace SkynetServer.SocketServer

open Transition Chains Function

variable {τ : Type*}

/-- The nodes of the low and of the high list, with their addresses. -/
abbrev Nodes (τ : Type*) := Bool → List (ℕ × WriteBuffer τ)

namespace RawSocket

/-- The socket with the given send lists. -/
def view (m : RawSocket τ) (L : Nodes τ) : Socket τ where
  id := m.id
  type := m.type
  protocol := m.protocol
  sending := m.sending
  high := (L false).map Prod.snd
  low := (L true).map Prod.snd
  wbSize := m.wbSize
  warnSize := m.warnSize
  peer := m.peer
  lock := m.lock
  dw := m.dw
  poll := m.poll

/-- No node is in both lists. -/
def Apart (L : Nodes τ) : Prop :=
  ∀ low, ∀ a ∈ addresses (L low), a ∉ addresses (L !low)

/-- The pointers of the socket are those of the two lists. -/
structure Stored (m : RawSocket τ) (L : Nodes τ) : Prop where
  holds : ∀ low, Holds m.heap (m.list low) (L low)
  apart : Apart L

/-- The same while one of the lists is being sent. -/
structure Sending (m : RawSocket τ) (low : Bool) (L : Nodes τ) : Prop where
  list : Loose m.heap (m.list low) (L low)
  other : Holds m.heap (m.list !low) (L !low)
  apart : Apart L

/-- The socket has two proper lists, and their account is right. -/
def Settled (m : RawSocket τ) : Prop :=
  ∃ L, m.Stored L ∧ (m.view L).Balanced

section Lists

variable {m : RawSocket τ} {low : Bool} {L : Nodes τ} {a : ℕ}
  {b : WriteBuffer τ} {rest : List (ℕ × WriteBuffer τ)}
  {n : Node (WriteBuffer τ)}

@[simp] theorem list_setList (m : RawSocket τ) (low : Bool) (e : Ends) :
    (m.setList low e).list low = e := by
  cases low <;> rfl

@[simp] theorem list_not_setList (m : RawSocket τ) (low : Bool) (e : Ends) :
    (m.setList low e).list (!low) = m.list (!low) := by
  cases low <;> rfl

@[simp] theorem heap_setList (m : RawSocket τ) (low : Bool) (e : Ends) :
    (m.setList low e).heap = m.heap := by
  cases low <;> rfl

theorem Apart.update_of_subset
    (h : Apart L) (hsub : ∀ c ∈ addresses rest, c ∈ addresses (L low)) :
    Apart (update L low rest) := by
  have hnot : ∀ b : Bool, (!b) ≠ b := fun b => by cases b <;> decide
  intro b c hc
  rcases Bool.eq_or_eq_not b low with rfl | rfl
  · rw [update_self] at hc
    rw [update_of_ne (hnot b)]
    exact h b c (hsub c hc)
  · rw [update_of_ne (hnot low)] at hc
    rw [Bool.not_not, update_self]
    intro hmem
    have := h (!low) c hc
    rw [Bool.not_not] at this
    exact this (hsub c hmem)

theorem Stored.congr
    {m' : RawSocket τ} (h : m.Stored L) (hheap : m'.heap = m.heap)
    (hlist : ∀ low, m'.list low = m.list low) : m'.Stored L := by
  refine ⟨fun low => ?_, h.apart⟩
  rw [hheap, hlist]
  exact h.holds low

theorem Stored.sending (h : m.Stored L) (low : Bool) : m.Sending low L :=
  ⟨(h.holds low).loose, h.holds !low, h.apart⟩

theorem Sending.walk (h : m.Sending low L) (b : Bool) :
    Walk m.heap (m.list b).head (L b) := by
  rcases Bool.eq_or_eq_not b low with rfl | rfl
  · exact h.list.walk
  · exact h.other.walk

theorem Sending.stored
    (h : m.Sending low L)
    (htail : (m.list low).tail = (addresses (L low)).getLast?) :
    m.Stored L := by
  refine ⟨fun b => ?_, h.apart⟩
  rcases Bool.eq_or_eq_not b low with rfl | rfl
  · exact ⟨h.list.walk, htail⟩
  · exact h.other

/-- `list->tail = NULL` at the end of the loop. -/
theorem Sending.repair (h : m.Sending low L) (hnil : L low = []) :
    (m.setList low { m.list low with tail := none }).Stored L := by
  refine ⟨fun b => ?_, h.apart⟩
  have hwalk := h.list.walk
  rcases Bool.eq_or_eq_not b low with rfl | rfl
  · rw [list_setList, heap_setList, hnil]
    rw [hnil] at hwalk
    exact ⟨hwalk, rfl⟩
  · rw [list_not_setList, heap_setList]
    exact h.other

theorem view_setList (m : RawSocket τ) (low : Bool) (e : Ends)
    (L : Nodes τ) : (m.setList low e).view L = m.view L := by
  cases low <;> rfl

theorem view_list (m : RawSocket τ) (L : Nodes τ) (low : Bool) :
    (m.view L).list low = (L low).map Prod.snd := by
  cases low <;> rfl

/-! ### A list changes -/

/-- A list and its nodes change, and `c` bytes leave it. -/
def edit (m : RawSocket τ) (low : Bool) (e : Ends)
    (h : Heap (WriteBuffer τ)) (c : ℕ) : RawSocket τ :=
  { m.setList low e with wbSize := m.wbSize - c, heap := h }

@[simp] theorem list_edit
    (m : RawSocket τ) (low : Bool) (e : Ends) (h : Heap (WriteBuffer τ))
    (c : ℕ) : (m.edit low e h c).list low = e := by
  cases low <;> rfl

@[simp] theorem list_not_edit
    (m : RawSocket τ) (low : Bool) (e : Ends) (h : Heap (WriteBuffer τ))
    (c : ℕ) : (m.edit low e h c).list (!low) = m.list (!low) := by
  cases low <;> rfl

theorem view_edit
    (m : RawSocket τ) (low : Bool) (e : Ends) (h : Heap (WriteBuffer τ))
    (c : ℕ) (L : Nodes τ) (rest : List (ℕ × WriteBuffer τ)) :
    (m.edit low e h c).view (update L low rest) =
      (m.view L).setList low (rest.map Prod.snd) c := by
  cases low <;> rfl

theorem shift_eq (m : RawSocket τ) (low : Bool) (a : ℕ)
    (n : Node (WriteBuffer τ)) :
    m.shift low a n =
      m.edit low { m.list low with head := n.next } (m.heap.erase a)
        n.value.sz :=
  rfl

theorem dropUdp_eq (m : RawSocket τ) (low : Bool) (a : ℕ)
    (n : Node (WriteBuffer τ)) :
    m.dropUdp low a n =
      m.edit low
        { head := n.next
          tail := if n.next = none then none else (m.list low).tail }
        (m.heap.erase a) n.value.sz :=
  rfl

theorem advance_eq (m : RawSocket τ) (low : Bool) (a : ℕ)
    (n : Node (WriteBuffer τ)) (c : ℕ) :
    m.advance a n c =
      m.edit low (m.list low) (m.heap.insert a ⟨n.value.advance c, n.next⟩)
        c := by
  cases low <;> rfl

/-- The other list is left alone. -/
theorem Sending.edit
    {e : Ends} {h : Heap (WriteBuffer τ)} {c : ℕ}
    (hsending : m.Sending low L) (hlist : Loose h e rest)
    (hsub : ∀ x ∈ addresses rest, x ∈ addresses (L low))
    (hframe : ∀ x ∉ addresses (L low), h.lookup x = m.heap.lookup x) :
    (m.edit low e h c).Sending low (update L low rest) := by
  have hnot : (!low) ≠ low := by cases low <;> decide
  refine ⟨?_, ?_, hsending.apart.update_of_subset hsub⟩
  · rw [list_edit, update_self]
    exact hlist
  · rw [list_not_edit, update_of_ne hnot]
    refine ⟨hsending.other.walk.congr fun x hx => ?_, hsending.other.tail⟩
    refine hframe x fun hmem => ?_
    exact hsending.apart low x hmem hx

theorem getLast?_rest
    {l : List (ℕ × WriteBuffer τ)} (hne : l ≠ []) (x : ℕ × WriteBuffer τ) :
    (addresses (x :: l)).getLast? = (addresses l).getLast? := by
  cases l with
  | nil => exact absurd rfl hne
  | cons y l => exact getLast?_addresses x y l

/-- The first node of a list, as the pointer and the memory have it. -/
theorem Sending.exists_cons
    (h : m.Sending low L) (hhead : (m.list low).head = some a) :
    ∃ n rest, L low = (a, n.value) :: rest ∧ m.heap.lookup a = some n ∧
      Walk (m.heap.erase a) n.next rest := by
  have hwalk := h.list.walk
  rw [hhead] at hwalk
  obtain ⟨b, next, rest, hL, hlookup, -⟩ := hwalk.exists_cons
  refine ⟨⟨b, next⟩, rest, hL, hlookup, ?_⟩
  rw [hL] at hwalk
  exact hwalk.pop hlookup

section Head

variable (h : m.Sending low L) (hL : L low = (a, n.value) :: rest)
  (hlookup : m.heap.lookup a = some n)
  (hrest : Walk (m.heap.erase a) n.next rest)

include h hL in
theorem Sending.last (hne : rest ≠ []) :
    (m.list low).tail = (addresses rest).getLast? := by
  rw [h.list.last (hL ▸ List.cons_ne_nil _ _), hL, getLast?_rest hne]

include hL in
theorem erase_frame (c : ℕ) (hc : c ∉ addresses (L low)) :
    (m.heap.erase a).lookup c = m.heap.lookup c :=
  AList.lookup_erase_ne fun he => hc (he ▸ hL ▸ List.mem_cons_self)

include hL in
theorem rest_subset (c : ℕ) (hc : c ∈ addresses rest) :
    c ∈ addresses (L low) := by
  rw [hL]
  exact List.mem_cons_of_mem _ hc

include h hL hrest

/-- The first node is freed, in the loop of `send_list`. -/
theorem Sending.shift :
    (m.shift low a n).Sending low (update L low rest) := by
  rw [shift_eq]
  exact h.edit ⟨hrest, h.last hL⟩ (rest_subset hL) (erase_frame hL)

theorem Sending.dropUdp :
    (m.dropUdp low a n).Stored (update L low rest) := by
  have hempty := hrest.head_eq_none_iff
  have hsending : (m.dropUdp low a n).Sending low (update L low rest) := by
    rw [dropUdp_eq]
    refine h.edit ⟨hrest, fun hne => ?_⟩ (rest_subset hL) (erase_frame hL)
    simp only [hempty, if_neg hne]
    exact h.last hL hne
  refine hsending.stored ?_
  rw [dropUdp_eq, list_edit, update_self]
  split
  · rename_i hnone
    rw [hempty.mp hnone]
    rfl
  · rename_i hnone
    exact h.last hL fun hnil => hnone (hempty.mpr hnil)

end Head

/-- A part of the first node has been sent. -/
theorem Sending.advance
    (h : m.Sending low L) (hL : L low = (a, n.value) :: rest)
    (hlookup : m.heap.lookup a = some n) (c : ℕ) :
    (m.advance a n c).Stored
      (update L low ((a, n.value.advance c) :: rest)) := by
  have hwalk := h.list.walk
  have hlast := h.list.last (hL ▸ List.cons_ne_nil _ _)
  rw [hL] at hwalk hlast
  have hset : Walk (m.heap.insert a ⟨n.value.advance c, n.next⟩)
      (m.list low).head ((a, n.value.advance c) :: rest) :=
    hwalk.setHead hlookup
  rw [advance_eq m low]
  refine (h.edit ⟨hset, fun _ => hlast⟩ ?_ ?_).stored ?_
  · rw [hL]
    exact fun x hx => hx
  · rw [hL]
    refine fun x hx => AList.lookup_insert_ne fun he => ?_
    exact hx (he ▸ List.mem_cons_self)
  · rw [list_edit, update_self]
    exact hlast

theorem view_shift (m : RawSocket τ) (low : Bool) (L : Nodes τ) (a : ℕ)
    (n : Node (WriteBuffer τ)) (rest : List (ℕ × WriteBuffer τ)) :
    (m.shift low a n).view (update L low rest) =
      (m.view L).setList low (rest.map Prod.snd) n.value.sz :=
  view_edit ..

theorem view_dropUdp (m : RawSocket τ) (low : Bool) (L : Nodes τ) (a : ℕ)
    (n : Node (WriteBuffer τ)) (rest : List (ℕ × WriteBuffer τ)) :
    (m.dropUdp low a n).view (update L low rest) =
      (m.view L).setList low (rest.map Prod.snd) n.value.sz :=
  view_edit ..

theorem view_advance (m : RawSocket τ) (low : Bool) (L : Nodes τ) (a : ℕ)
    (n : Node (WriteBuffer τ)) (c : ℕ) (rest : List (ℕ × WriteBuffer τ)) :
    (m.advance a n c).view (update L low ((a, n.value.advance c) :: rest)) =
      (m.view L).setList low (n.value.advance c :: rest.map Prod.snd) c := by
  rw [advance_eq m low, view_edit]
  rfl

end Lists

/-! ### The functions -/

/-- What a function reports when it has closed the socket. -/
def Ended (m : RawSocket τ) (r : Option Report) : Prop :=
  m.type = .invalid ∧ (r.any fun r => r.kind = .close) = true

/-- What `send_list` returns: the socket is closed, or nodes of the list have
been sent. -/
def Sent (m : RawSocket τ) (low : Bool) (L : Nodes τ)
    (r : RawSocket τ × Option Report) : Prop :=
  r.1.Ended r.2 ∨
    r.2 = none ∧
      ∃ L', r.1.Stored L' ∧ Socket.Sends low (m.view L) (r.1.view L')

/-- What `send_buffer_` returns: the socket is closed, or open with proper
lists. -/
def Settles (r : RawSocket τ × Option Report) : Prop :=
  r.1.Ended r.2 ∨
    (r.2.any fun r => r.kind = .close) = false ∧ r.1.isOpen ∧ r.1.Settled

section Functions

variable {m : RawSocket τ} {low : Bool} {L : Nodes τ} {acts : List Act}

/-- No fault. -/
abbrev NoFault : ListFault → Prop := fun _ => False

variable {a : ℕ} {n : Node (WriteBuffer τ)} {h : Heap (WriteBuffer τ)}

theorem fetch_of_lookup
    (ha : h.lookup a = some n) : fetch h a = .next n := by
  rw [fetch, ha]

/-- All nodes of a list are freed, and no others. -/
theorem freeFrom_of_walk
    {p : Option ℕ} {l : List (ℕ × WriteBuffer τ)}
    (hwalk : Walk h p l) :
    ∃ h', freeFrom h p = .next h' ∧
      ∀ a ∉ addresses l, h'.lookup a = h.lookup a := by
  induction l generalizing h p with
  | nil =>
      obtain rfl : p = none := hwalk
      exact ⟨h, by rw [freeFrom], fun _ _ => rfl⟩
  | cons x l ih =>
      have hmem : x.1 ∈ h := hwalk.mem List.mem_cons_self
      have hhead := hwalk
      obtain ⟨rfl, next, hx, -⟩ := hhead
      obtain ⟨h', hfree, hframe⟩ := ih (hwalk.pop hx)
      refine ⟨h', ?_, fun a ha => ?_⟩
      · rw [freeFrom, dif_pos hmem, hx]
        exact hfree
      · have hax : a ≠ x.1 := fun he => ha (he ▸ List.mem_cons_self)
        rw [hframe a fun hal => ha (List.mem_cons_of_mem _ hal),
          AList.lookup_erase_ne hax]

theorem forceClose_ensures
    (h : m.Sending low L) (htype : m.type ≠ .reserve) (held : Bool) :
    (m.forceClose held).Ensures NoFault fun m' => m'.type = .invalid := by
  rw [forceClose]
  split
  · rename_i hinvalid
    exact hinvalid
  · obtain ⟨h₁, hhigh, hframe⟩ := freeFrom_of_walk (h.walk false)
    have hlow : Walk h₁ m.low.head (L true) :=
      (h.walk true).congr fun a ha => hframe a (h.apart true a ha)
    obtain ⟨h₂, hfree, -⟩ := freeFrom_of_walk hlow
    rw [show freeFrom m.heap m.high.head = .next h₁ from hhigh]
    simp only [Outcome.bind, hfree]
    split
    · trivial
    · rfl

theorem closed_ensures
    (h : m.Sending low L) (htype : m.type ≠ .reserve) :
    m.closed.Ensures NoFault fun r => r.1.Ended r.2 :=
  (forceClose_ensures h htype true).bind fun _ hinvalid => ⟨hinvalid, rfl⟩

/-- The list is empty at the end of the loop. -/
theorem sent_of_nil
    (h : m.Sending low L) (hhead : (m.list low).head = none) :
    m.Sent low L
      (m.setList low { m.list low with tail := none }, none) := by
  refine .inr ⟨rfl, L, h.repair (h.list.walk.head_eq_none_iff.mp hhead), ?_⟩
  rw [view_setList]
  exact .refl _

variable {rest : List (ℕ × WriteBuffer τ)}

/-- The loop stops without sending anything. -/
theorem sent_of_stop
    (h : m.Sending low L) (hL : L low = (a, n.value) :: rest) :
    m.Sent low L (m, none) := by
  have htail := h.list.last (hL ▸ List.cons_ne_nil _ _)
  exact .inr ⟨rfl, L, h.stored htail, .refl _⟩

variable {r : RawSocket τ × Option Report}

/-- The loop goes on behind the first node. -/
theorem Sent.whole
    {k : RawSocket τ}
    (hL : L low = (a, n.value) :: rest)
    (hview : k.view (update L low rest) =
      (m.view L).setList low (rest.map Prod.snd) n.value.sz)
    (hsent : k.Sent low (update L low rest) r) : m.Sent low L r := by
  rcases hsent with hended | ⟨hnone, L', hstored, hsends⟩
  · exact .inl hended
  · rw [hview] at hsends
    refine .inr ⟨hnone, L', hstored, .whole ?_ hsends⟩
    rw [view_list, hL]
    rfl

theorem sendListTcp_ensures
    (h : m.Sending low L) (htype : m.type ≠ .reserve) :
    (m.sendListTcp low acts).Ensures NoFault (m.Sent low L) := by
  induction acts generalizing m L with
  | nil =>
      rw [sendListTcp]
      cases hhead : (m.list low).head with
      | none => exact sent_of_nil h hhead
      | some a =>
          obtain ⟨n, rest, hL, hlookup, hrest⟩ := h.exists_cons hhead
          simp only [fetch_of_lookup hlookup]
          trivial
  | cons act acts ih =>
      rw [sendListTcp]
      cases hhead : (m.list low).head with
      | none => exact sent_of_nil h hhead
      | some a =>
          obtain ⟨n, rest, hL, hlookup, hrest⟩ := h.exists_cons hhead
          simp only [fetch_of_lookup hlookup]
          cases act with
          | bytes c =>
              simp only
              split
              · have hshift := ih (h.shift hL hrest)
                  (by cases low <;> exact htype)
                exact hshift.mono fun _ =>
                  Sent.whole hL (view_shift m low L a n rest)
              · split
                · rename_i hc
                  refine .inr ⟨rfl, _, h.advance hL hlookup c, ?_⟩
                  rw [view_advance]
                  refine .part ?_ hc
                  rw [view_list, hL]
                  rfl
                · trivial
          | intr => exact ih h htype
          | again => exact sent_of_stop h hL
          | failed => exact (closed_ensures h htype).mono fun _ => .inl
          | call _ | go | ready _ | resolved _ _ | mismatch => trivial

theorem sent_of_dropUdp
    (h : m.Sending low L) (hL : L low = (a, n.value) :: rest)
    (hrest : Walk (m.heap.erase a) n.next rest) :
    m.Sent low L (m.dropUdp low a n, none) := by
  refine .inr ⟨rfl, _, h.dropUdp hL hrest, ?_⟩
  rw [view_dropUdp]
  refine .whole ?_ (.refl _)
  rw [view_list, hL]
  rfl

theorem sendListUdp_ensures (h : m.Sending low L) :
    (m.sendListUdp low acts).Ensures NoFault (m.Sent low L) := by
  induction acts generalizing m L with
  | nil =>
      rw [sendListUdp]
      cases hhead : (m.list low).head with
      | none => exact sent_of_nil h hhead
      | some a =>
          obtain ⟨n, rest, hL, hlookup, hrest⟩ := h.exists_cons hhead
          simp only [fetch_of_lookup hlookup]
          split
          · exact sent_of_dropUdp h hL hrest
          · trivial
  | cons act acts ih =>
      rw [sendListUdp]
      cases hhead : (m.list low).head with
      | none => exact sent_of_nil h hhead
      | some a =>
          obtain ⟨n, rest, hL, hlookup, hrest⟩ := h.exists_cons hhead
          simp only [fetch_of_lookup hlookup]
          split
          · exact sent_of_dropUdp h hL hrest
          · cases act with
            | bytes c =>
                exact (ih (h.shift hL hrest)).mono fun _ =>
                  Sent.whole hL (view_shift m low L a n rest)
            | intr | again => exact sent_of_stop h hL
            | failed => exact sent_of_dropUdp h hL hrest
            | call _ | go | ready _ | resolved _ _ | mismatch => trivial

theorem sendList_ensures
    (h : m.Stored L) (htype : m.type ≠ .reserve) :
    (m.sendList low acts).Ensures NoFault (m.Sent low L) := by
  rw [sendList]
  split
  · exact sendListTcp_ensures (h.sending low) htype
  · exact sendListUdp_ensures (h.sending low)

theorem listUncomplete_eq (h : m.Stored L) :
    listUncomplete m.heap m.low = .next (m.view L).lowUncomplete := by
  have hwalk : Walk m.heap m.low.head (L true) := (h.holds true).walk
  rw [listUncomplete]
  cases hhead : m.low.head with
  | none =>
      have hnil := hwalk.head_eq_none_iff.mp hhead
      simp [Socket.lowUncomplete, view, hnil]
  | some a =>
      obtain ⟨n, rest, hL, hlookup, -⟩ := (h.sending true).exists_cons hhead
      simp [fetch_of_lookup hlookup, Outcome.bind, Socket.lowUncomplete, view,
        hL]

/-- The pointers of an empty list are null. -/
theorem Stored.head_eq_none_iff (h : m.Stored L) (low : Bool) :
    (m.list low).head = none ↔ L low = [] :=
  (h.holds low).walk.head_eq_none_iff

theorem Stored.sendBufferEmpty_eq (h : m.Stored L) :
    m.sendBufferEmpty = (m.view L).sendBufferEmpty := by
  have hiff : ∀ low, (m.list low).head.isNone = ((L low).map Prod.snd).isEmpty :=
    fun low => by
      rw [Bool.eq_iff_iff, Option.isNone_iff_eq_none, List.isEmpty_iff,
        h.head_eq_none_iff low, List.map_eq_nil_iff]
  rw [sendBufferEmpty, Socket.sendBufferEmpty]
  exact congrArg₂ _ (hiff false) (hiff true)

variable {b : WriteBuffer τ}

/-- The first node of the low list becomes the only one of the high list. -/
theorem raiseUncomplete_eq
    {rest : List (WriteBuffer τ)} (h : m.Stored L)
    (hhigh : L false = []) (hlow : (m.view L).low = b :: rest) :
    ∃ m' L', m.raiseUncomplete = .next m' ∧ m'.Stored L' ∧
      m'.view L' = { m.view L with high := [b], low := rest } := by
  have hhead : (m.list true).head ≠ none := fun hnone => by
    have hnil : L true = [] := (h.head_eq_none_iff true).mp hnone
    rw [view, hnil] at hlow
    cases hlow
  obtain ⟨a, ha⟩ := Option.ne_none_iff_exists'.mp hhead
  obtain ⟨n, nodes, hL, hlookup, -⟩ := (h.sending true).exists_cons ha
  have hnone : m.high.head = none := (h.head_eq_none_iff false).mpr hhigh
  have hcons : (m.view L).low = n.value :: nodes.map Prod.snd := by
    rw [view, hL]
    rfl
  obtain ⟨hb, hrest⟩ := List.cons.inj (hlow.symm.trans hcons)
  have hwalk : Walk m.heap (m.list true).head ((a, n.value) :: nodes) :=
    hL ▸ (h.holds true).walk
  have hnot := hwalk.notMem_tail
  have hnext : Walk (m.heap.insert a ⟨n.value, none⟩) n.next nodes :=
    (hwalk.next hlookup).insert hnot
  have htail : (if n.next = none then none else m.low.tail) =
      (addresses nodes).getLast? := by
    have hlast := (h.sending true).last hL
    split
    · rename_i hn
      rw [hnext.head_eq_none_iff.mp hn]
      rfl
    · rename_i hn
      exact hlast fun hnil => hn (hnext.head_eq_none_iff.mpr hnil)
  have heq : m.raiseUncomplete =
      .next { m with
        low :=
          { head := n.next
            tail := if n.next = none then none else m.low.tail }
        heap := m.heap.insert a ⟨n.value, none⟩
        high := ⟨some a, some a⟩ } := by
    rw [raiseUncomplete, show m.low.head = some a from ha]
    simp only [fetch_of_lookup hlookup, Outcome.bind]
    rw [if_neg (not_not.mpr hnone)]
  refine ⟨_, fun low => if low then nodes else [(a, n.value)], heq,
    ⟨?_, ?_⟩, ?_⟩
  · intro low
    cases low with
    | false => exact ⟨⟨rfl, none, AList.lookup_insert _, rfl⟩, rfl⟩
    | true => exact ⟨hnext, htail⟩
  · intro low c hc
    cases low with
    | false =>
        obtain rfl := List.mem_singleton.mp hc
        exact hnot
    | true =>
        intro hmem
        obtain rfl := List.mem_singleton.mp hmem
        exact hnot hc
  · rw [hb, hrest]
    rfl

theorem Settles.of_open
    {r : Option Report} (hclose : (r.any fun r => r.kind = .close) = false)
    (hopen : m.isOpen) (h : m.Settled) : Settles (m, r) :=
  .inr ⟨hclose, hopen, h⟩

theorem ne_reserve_of_isOpen (hopen : m.isOpen) : m.type ≠ .reserve := by
  rw [isOpen, Bool.and_eq_true] at hopen
  exact of_decide_eq_true hopen.2

/-- The assertion of step 4 holds. -/
theorem turnOff_ensures
    (h : m.Stored L) (hbalanced : (m.view L).Balanced) (hopen : m.isOpen)
    (hempty : ∀ low, L low = []) :
    m.turnOff.Ensures NoFault Settles := by
  have hview : (m.view L).sendBufferEmpty = true := by
    simp [Socket.sendBufferEmpty, view, hempty]
  have hsize : m.wbSize = 0 := hbalanced.wbSize_eq_zero hview
  have hnone : m.sendBufferEmpty = true := h.sendBufferEmpty_eq.trans hview
  have hstored : (m.spWrite false).Stored L := h.congr rfl fun _ => rfl
  rw [turnOff, if_pos ⟨hnone, hsize⟩]
  simp only
  split
  · exact (closed_ensures (hstored.sending false)
      (ne_reserve_of_isOpen hopen)).mono fun _ => .inl
  · split
    · exact .of_open rfl hopen ⟨L, h.congr rfl fun _ => rfl,
        hbalanced.counted, hbalanced.untouched⟩
    · exact .of_open rfl hopen
        ⟨L, hstored, hbalanced.counted, hbalanced.untouched⟩

theorem isOpen_congr {m' : RawSocket τ} (h : m'.type = m.type) :
    m'.isOpen = m.isOpen := by
  rw [isOpen, isOpen, h]

/-- The low list has been sent as far as possible. -/
theorem afterLow_ensures
    {k : Socket τ} (h : m.Stored L) (hk : k.Balanced)
    (hsends : Socket.Sends true k (m.view L)) (hopen : m.isOpen)
    (hhigh : L false = []) : m.afterLow.Ensures NoFault Settles := by
  rw [afterLow, listUncomplete_eq h]
  simp only [Outcome.bind]
  split
  · rename_i huncomplete
    obtain ⟨b, rest, hlow⟩ : ∃ b rest, (m.view L).low = b :: rest := by
      rw [Socket.lowUncomplete] at huncomplete
      split at huncomplete
      · cases huncomplete
      · exact ⟨_, _, ‹_›⟩
    obtain ⟨m', L', heq, hstored, hview⟩ := raiseUncomplete_eq h hhigh hlow
    have hbalanced := hk.raise hsends (by rw [view, hhigh]; rfl) hlow
    have htype : m'.type = m.type := congrArg Socket.type hview
    rw [heq]
    exact .of_open rfl ((isOpen_congr htype).trans hopen)
      ⟨L', hstored, hview ▸ hbalanced⟩
  · rename_i hcomplete
    have hbalanced := hk.sends_low hsends (Bool.eq_false_iff.mpr hcomplete)
    split
    · exact .of_open rfl hopen ⟨L, h, hbalanced⟩
    · rename_i hnone
      refine turnOff_ensures h hbalanced hopen fun low => ?_
      cases low with
      | false => exact hhigh
      | true => exact (h.head_eq_none_iff true).mp (not_not.mp hnone)

/-- After `send_list` without a close, with the nodes that are left. -/
theorem Sent.stored
    (h : m.Sent low L r)
    (hr : r.2.isSome = false) :
    ∃ L', r.1.Stored L' ∧ Socket.Sends low (m.view L) (r.1.view L') ∧
      r.1.type = m.type := by
  rcases h with ⟨-, hclose⟩ | ⟨-, L', hstored, hsends⟩
  · rw [Option.isSome_eq_false_iff, Option.isNone_iff_eq_none] at hr
    rw [hr] at hclose
    cases hclose
  · exact ⟨L', hstored, hsends, hsends.type⟩

theorem Sent.ended
    (h : m.Sent low L r)
    (hr : r.2.isSome = true) : r.1.Ended r.2 := by
  rcases h with hended | ⟨hnone, -⟩
  · exact hended
  · rw [hnone] at hr
    cases hr

theorem sendLow_ensures
    (h : m.Stored L) (hbalanced : (m.view L).Balanced) (hopen : m.isOpen)
    (hhigh : L false = []) : (m.sendLow acts).Ensures NoFault Settles := by
  rw [sendLow]
  split
  · refine (sendList_ensures h (ne_reserve_of_isOpen hopen)).bind ?_
    intro r hsent
    simp only
    split
    · rename_i hr
      exact .inl (hsent.ended hr)
    · rename_i hr
      obtain ⟨L', hstored, hsends, htype⟩ :=
        hsent.stored (Bool.eq_false_iff.mpr hr)
      have hhigh' : (r.1.view L').high = (m.view L).high := hsends.list_not
      have hnil : L' false = [] := by
        rw [view, view, hhigh] at hhigh'
        exact List.map_eq_nil_iff.mp hhigh'
      exact afterLow_ensures hstored hbalanced hsends
        ((isOpen_congr htype).trans hopen) hnil
  · rename_i hnone
    refine turnOff_ensures h hbalanced hopen fun low => ?_
    cases low with
    | false => exact hhigh
    | true => exact (h.head_eq_none_iff true).mp (not_not.mp hnone)

theorem sendBuffer'_ensures
    {his los : List Act} (h : m.Settled) (hopen : m.isOpen) :
    (m.sendBuffer_ his los).Ensures NoFault Settles := by
  obtain ⟨L, h, hbalanced⟩ := h
  rw [sendBuffer_, listUncomplete_eq h, hbalanced.lowUncomplete]
  simp only [Outcome.bind, Bool.false_eq_true, if_false]
  refine (sendList_ensures h (ne_reserve_of_isOpen hopen)).bind ?_
  intro r hsent
  split
  · rename_i hr
    exact .inl (hsent.ended hr)
  · rename_i hr
    obtain ⟨L', hstored, hsends, htype⟩ :=
      hsent.stored (Bool.eq_false_iff.mpr hr)
    have hbalanced' := hbalanced.sends_high hsends
    have hopen' := (isOpen_congr htype).trans hopen
    split
    · rename_i hnone
      exact sendLow_ensures hstored hbalanced' hopen'
        ((hstored.head_eq_none_iff false).mp hnone)
    · exact .of_open rfl hopen' ⟨L', hstored, hbalanced'⟩

/-- The rest of a direct write becomes the first node of the high list. -/
theorem takeDw_ensures (h : m.Stored L) :
    (m.takeDw a).Ensures NoFault fun m' =>
      ∃ L', m'.Stored L' ∧ m'.view L' = (m.view L).takeDw := by
  cases hdw : m.dw with
  | none =>
      rw [takeDw, hdw]
      refine ⟨L, h, ?_⟩
      rw [Socket.takeDw, show (m.view L).dw = none from hdw]
  | some b =>
      rw [takeDw, hdw]
      simp only
      split
      · trivial
      · rename_i ha
        have hnot : ∀ low, a ∉ addresses (L low) := fun low hmem =>
          ha ((h.holds low).walk.mem hmem)
        have hnil : m.high.head = none ↔ L false = [] :=
          h.head_eq_none_iff false
        have htail : (if m.high.head = none then some a else m.high.tail) =
            (addresses ((a, b) :: L false)).getLast? := by
          split
          · rename_i hnone
            rw [hnil.mp hnone]
            rfl
          · rename_i hsome
            rw [getLast?_rest fun hempty => hsome (hnil.mpr hempty)]
            exact (h.holds false).tail
        refine ⟨fun low => if low then L true else (a, b) :: L false,
          ⟨fun low => ?_, fun low c hc => ?_⟩, ?_⟩
        · cases low with
          | false => exact ⟨(h.holds false).walk.push (hnot false), htail⟩
          | true =>
              exact ⟨(h.holds true).walk.insert (hnot true), (h.holds true).tail⟩
        · cases low with
          | false =>
              rcases List.mem_cons.mp hc with rfl | hc
              · exact hnot true
              · exact h.apart false c hc
          | true =>
              intro hmem
              rcases List.mem_cons.mp hmem with rfl | hmem
              · exact hnot true hc
              · exact h.apart true c hc hmem
        · rw [Socket.takeDw, show (m.view L).dw = some b from hdw]
          rfl

theorem type_takeDw (k : Socket τ) : k.takeDw.type = k.type := by
  rw [Socket.takeDw]
  split <;> rfl

theorem takeDw_settled (h : m.Settled) :
    (m.takeDw a).Ensures NoFault fun m' =>
      m'.type = m.type ∧ m'.Settled := by
  obtain ⟨L, h, hbalanced⟩ := h
  refine (takeDw_ensures h).mono fun m' hm' => ?_
  obtain ⟨L', hstored, hview⟩ := hm'
  refine ⟨?_, L', hstored, hview ▸ hbalanced.takeDw⟩
  calc
    m'.type = (m.view L).takeDw.type := congrArg Socket.type hview
    _ = m.type := type_takeDw _

theorem sendBuffer_ensures
    {his los : List Act} (h : m.Settled) (hopen : m.isOpen) :
    (m.sendBuffer a his los).Ensures NoFault Settles := by
  rw [sendBuffer]
  split
  · exact .of_open rfl hopen h
  · refine (takeDw_settled h).bind fun m' hm' => ?_
    exact sendBuffer'_ensures hm'.2 ((isOpen_congr hm'.1).trans hopen)

/-- The assertions of `append_sendbuffer_` hold, and the new node is the last
one. -/
theorem appendSendbuffer_ensures
    {e : Ends} {l : List (ℕ × WriteBuffer τ)}
    (hholds : Holds h e l) :
    (appendSendbuffer_ h e a b).Ensures NoFault fun r =>
      a ∉ h ∧ Holds r.1 r.2 (l ++ [(a, b)]) ∧
        ∀ c, c ∉ addresses l → c ≠ a → r.1.lookup c = h.lookup c := by
  rw [appendSendbuffer_]
  split
  · trivial
  · rename_i ha
    have hnot : a ∉ addresses l := fun hmem => ha (hholds.walk.mem hmem)
    have hlast : (addresses (l ++ [(a, b)])).getLast? = some a := by simp
    simp only
    cases hhead : e.head with
    | none =>
        obtain rfl : l = [] := hholds.walk.head_eq_none_iff.mp hhead
        refine ⟨ha, ⟨⟨rfl, none, AList.lookup_insert h, rfl⟩, rfl⟩, ?_⟩
        exact fun c _ hc => AList.lookup_insert_ne hc
    | some x =>
        have hne : addresses l ≠ [] := fun hnil => by
          have hempty := List.map_eq_nil_iff.mp hnil
          rw [hholds.walk.head_eq_none_iff.mpr hempty] at hhead
          cases hhead
        obtain ⟨t, ht⟩ := Option.ne_none_iff_exists'.mp
          (mt List.getLast?_eq_none_iff.mp hne)
        obtain ⟨v, hlookup⟩ := hholds.walk.lookup_last ht
        have hmem : t ∈ addresses l := List.mem_of_getLast? ht
        have hta : t ≠ a := fun he => hnot (he ▸ hmem)
        have hfetch : fetch (h.insert a ⟨b, none⟩) t = .next ⟨v, none⟩ :=
          fetch_of_lookup ((AList.lookup_insert_ne hta).trans hlookup)
        have hwalk := hholds.walk.concat (w := b) ht hlookup hnot
        rw [hhead] at hwalk
        simp only [hholds.tail, ht, hfetch, Outcome.bind]
        refine ⟨ha, ⟨hwalk, hlast.symm⟩, ?_⟩
        intro c hc hca
        have hct : c ≠ t := fun he => hc (he ▸ hmem)
        rw [AList.lookup_insert_ne hct, AList.lookup_insert_ne hca]

/-- A package is appended to one of the lists. -/
theorem append_ensures (h : m.Stored L) :
    (m.append low a b).Ensures NoFault fun m' =>
      ∃ L', m'.Stored L' ∧ m'.view L' = (m.view L).append low b := by
  rw [append]
  refine (appendSendbuffer_ensures (h.holds low)).bind fun r hr => ?_
  obtain ⟨ha, hholds, hframe⟩ := hr
  have hnot : ∀ b, a ∉ addresses (L b) := fun b hmem =>
    ha ((h.holds b).walk.mem hmem)
  have hne : (!low) ≠ low := by cases low <;> decide
  have hother : Holds r.1 (m.list !low) (L !low) := by
    refine ⟨(h.holds _).walk.congr fun c hc => ?_, (h.holds _).tail⟩
    refine hframe c (fun hmem => h.apart low c hmem hc) fun he => ?_
    exact hnot (!low) (he ▸ hc)
  have happart : ∀ c ∈ addresses (L low ++ [(a, b)]),
      c ∉ addresses (L !low) := by
    intro c hc
    rw [addresses_append] at hc
    rcases List.mem_append.mp hc with hc | hc
    · exact h.apart low c hc
    · rw [List.mem_singleton.mp hc]
      exact hnot (!low)
  refine ⟨update L low (L low ++ [(a, b)]), ⟨fun c => ?_, fun c => ?_⟩, ?_⟩
  · rcases Bool.eq_or_eq_not c low with rfl | rfl
    · rw [update_self]
      cases c <;> exact hholds
    · rw [update_of_ne hne]
      cases low <;> exact hother
  · rcases Bool.eq_or_eq_not c low with rfl | rfl
    · rw [update_self, update_of_ne hne]
      exact happart
    · rw [update_of_ne hne, Bool.not_not, update_self]
      exact fun x hx hmem => happart x hmem hx
  · cases low <;> simp [view, setList, Socket.append]

theorem Settled.congr
    {m' : RawSocket τ} (h : m.Settled) (hheap : m'.heap = m.heap)
    (hlist : ∀ low, m'.list low = m.list low) (hsize : m'.wbSize = m.wbSize) :
    m'.Settled := by
  obtain ⟨L, h, hbalanced⟩ := h
  refine ⟨L, h.congr hheap hlist, ?_, hbalanced.untouched⟩
  exact hsize.trans hbalanced.counted

/-- The end of `send_socket` changes nothing that matters. -/
theorem warn_settles (hopen : m.isOpen) (h : m.Settled) : Settles m.warn := by
  rw [warn]
  split
  · exact .of_open rfl hopen (h.congr rfl (fun _ => rfl) rfl)
  · exact .of_open rfl hopen h

theorem type_append (k : Socket τ) (low : Bool) (b : WriteBuffer τ) :
    (k.append low b).type = k.type := by
  cases low <;> rfl

theorem queuePackage_ensures
    {package : Package τ} {first : Bool} {address : Option Address}
    (h : m.Settled) (hopen : m.isOpen) :
    (m.queuePackage package low first address a).Ensures NoFault Settles := by
  obtain ⟨L, h, hbalanced⟩ := h
  rw [queuePackage]
  refine (append_ensures h).bind fun m' hm' => ?_
  obtain ⟨L', hstored, hview⟩ := hm'
  have htype : m'.type = m.type :=
    (congrArg Socket.type hview).trans (type_append _ _ _)
  have hopen' := (isOpen_congr htype).trans hopen
  have hsettled : m'.Settled := ⟨L', hstored, hview ▸ hbalanced.append rfl⟩
  cases first with
  | false => exact warn_settles hopen' hsettled
  | true =>
      exact warn_settles (m := m'.spWrite true) hopen'
        (hsettled.congr rfl (fun _ => rfl) rfl)

/-- `send_socket` on an open socket. -/
theorem sendSocket_ensures
    {id : Id} {package : Package τ} {act : Act} (h : m.Settled)
    (hopen : m.isOpen) :
    (m.sendSocket id package act a).Ensures NoFault Settles := by
  have hstay : Settles (m, none) := .of_open rfl hopen h
  rw [sendSocket]
  split
  · exact hstay
  · split
    · split
      · exact queuePackage_ensures h hopen
      · split
        · split
          · trivial
          · split
            · exact hstay
            · exact queuePackage_ensures h hopen
        · exact hstay
    · split
      · exact queuePackage_ensures h hopen
      · exact queuePackage_ensures h hopen

theorem closeRest_ensures
    {shutdown : Bool} (h : m.Settled) (hopen : m.isOpen) :
    (m.closeRest shutdown).Ensures NoFault Settles := by
  rw [closeRest]
  split
  · obtain ⟨L, h, -⟩ := h
    refine (forceClose_ensures (h.sending false)
      (ne_reserve_of_isOpen hopen) false).bind fun m' hinvalid => ?_
    exact .inl ⟨hinvalid, rfl⟩
  · exact .of_open rfl rfl (h.congr rfl (fun _ => rfl) rfl)

theorem closeSocket_ensures
    {id : Id} {shutdown : Bool} {his los : List Act} (h : m.Settled)
    (hopen : m.isOpen) (hid : m.id = id) :
    (m.closeSocket id shutdown a his los).Ensures NoFault Settles := by
  have hvalid : ¬(m.type = .invalid ∨ m.id ≠ id) := by
    rw [isOpen, Bool.and_eq_true] at hopen
    exact not_or.mpr ⟨of_decide_eq_true hopen.1, not_not.mpr hid⟩
  rw [closeSocket, if_neg hvalid]
  split
  · exact closeRest_ensures h hopen
  · refine (sendBuffer_ensures h hopen).bind fun r hr => ?_
    simp only
    rcases hr with hended | ⟨hclose, hopen', hsettled⟩
    · rw [if_pos hended.2]
      exact .inl hended
    · rw [if_neg (Bool.eq_false_iff.mp hclose)]
      exact closeRest_ensures hsettled hopen'

/-! ### Sequences of operations -/

/-- The socket is closed, or open with proper lists. -/
def Proper (m : RawSocket τ) : Prop :=
  m.type = .invalid ∨ m.isOpen ∧ m.Settled

theorem Settles.proper
    (h : Settles r) : r.1.Proper := by
  rcases h with hended | ⟨-, hopen, hsettled⟩
  · exact .inl hended.1
  · exact .inr ⟨hopen, hsettled⟩

/-- Nothing happens to a closed socket. -/
theorem step_ensures_of_invalid
    (o : Operation τ) (hinvalid : m.type = .invalid) :
    (m.step o).Ensures NoFault fun m' => m'.type = .invalid := by
  have hclosed : m.isOpen = false := by
    rw [isOpen, hinvalid]
    rfl
  cases o with
  | send id package act a =>
      rw [step, sendSocket, if_pos (.inl hinvalid)]
      exact hinvalid
  | write a his los =>
      rw [step, if_pos (.inl hinvalid)]
      exact hinvalid
  | close id shutdown a his los =>
      rw [step, closeSocket, if_pos (.inl hinvalid)]
      exact hinvalid
  | error =>
      rw [step, forceClose, if_pos hinvalid]
      exact hinvalid
  | lock held =>
      rw [step]
      split
      · trivial
      · exact hinvalid
  | leave b =>
      rw [step]
      split
      · exact hinvalid
      · trivial
  | count sending => exact hinvalid
  | turn type poll =>
      rw [step, hclosed]
      simp only [Bool.false_eq_true, false_and, if_false]
      trivial
  | setUdp peer => exact hinvalid

/-- An open socket keeps proper lists until it is closed. -/
theorem step_ensures
    (o : Operation τ) (h : m.Proper) :
    (m.step o).Ensures NoFault Proper := by
  rcases h with hinvalid | ⟨hopen, hsettled⟩
  · exact (step_ensures_of_invalid o hinvalid).mono fun _ => .inl
  · have hstay : m.Proper := .inr ⟨hopen, hsettled⟩
    cases o with
    | send id package act a =>
        exact (sendSocket_ensures hsettled hopen).bind fun _ hr => hr.proper
    | write a his los =>
        rw [step]
        split
        · exact hstay
        · exact (sendBuffer_ensures hsettled hopen).bind fun _ hr => hr.proper
    | close id shutdown a his los =>
        rw [step]
        by_cases hid : m.id = id
        · exact (closeSocket_ensures hsettled hopen hid).bind fun _ hr =>
            hr.proper
        · rw [closeSocket, if_pos (.inr hid)]
          exact hstay
    | error =>
        obtain ⟨L, hstored, -⟩ := hsettled
        exact (forceClose_ensures (hstored.sending false)
          (ne_reserve_of_isOpen hopen) false).mono fun _ => .inl
    | lock held =>
        rw [step]
        split
        · trivial
        · exact .inr ⟨hopen, hsettled.congr rfl (fun _ => rfl) rfl⟩
    | leave b =>
        rw [step]
        split
        · exact .inr ⟨hopen, hsettled.congr rfl (fun _ => rfl) rfl⟩
        · trivial
    | count sending | setUdp peer =>
        exact .inr ⟨hopen, hsettled.congr rfl (fun _ => rfl) rfl⟩
    | turn type poll =>
        rw [step]
        split
        · rename_i hturn
          refine .inr ⟨?_, hsettled.congr rfl (fun _ => rfl) rfl⟩
          rw [isOpen, Bool.and_eq_true]
          exact ⟨decide_eq_true hturn.2.1, decide_eq_true hturn.2.2⟩
        · trivial

end Functions

/-- A socket as `new_fd` and its callers leave it: it is open, both lists are
empty, and nothing is counted. -/
structure Fresh (m : RawSocket τ) : Prop where
  isOpen : m.isOpen
  high : m.high = {}
  low : m.low = {}
  wbSize : m.wbSize = 0

theorem Fresh.proper {m : RawSocket τ} (h : m.Fresh) : m.Proper := by
  refine .inr ⟨h.isOpen, fun _ => [], ⟨fun low => ?_, fun _ _ ha => ?_⟩,
    h.wbSize, fun _ hb => ?_⟩
  · have hlist : m.list low = {} := by
      cases low with
      | false => exact h.high
      | true => exact h.low
    rw [hlist]
    exact holds_nil m.heap
  · cases ha
  · cases hb

/-- In every sequence of sends, write events, direct writes and closes, from
the opening of a socket to its end: no assertion fails, no freed node is used,
and whenever `send_socket`, `send_buffer` or `send_buffer_` returns and the
socket is open, each list is between its two pointers, `wb_size` is the number
of bytes in the lists, and no node of the low list has been sent in part. -/
theorem send_lists_settled
    {m₀ m : RawSocket τ} (hfresh : m₀.Fresh) (h : Reaches step anyStep m₀ m) :
    (m.isOpen → m.Settled) ∧
      (∀ o e, m.step o ≠ .fault e) ∧
      (∀ a his los m' r, m.isOpen → m.sendBuffer a his los = .next (m', r) →
        m'.isOpen → m'.Settled) ∧
      ∀ a his los m₁ m' r, m.isOpen → m.takeDw a = .next m₁ →
        m₁.sendBuffer_ his los = .next (m', r) → m'.isOpen → m'.Settled := by
  have hproper : m.Proper :=
    h.ensures Proper hfresh.proper fun _ o hm _ => step_ensures o hm
  have hsettled : m.isOpen → m.Settled := by
    intro hopen
    rcases hproper with hinvalid | ⟨-, hsettled⟩
    · rw [isOpen, hinvalid] at hopen
      cases hopen
    · exact hsettled
  have hreturns : ∀ {m' : RawSocket τ} {r : Option Report},
      Settles (m', r) → m'.isOpen → m'.Settled := by
    intro m' r hr hopen'
    rcases hr with ⟨hinvalid, -⟩ | ⟨-, -, hsettled'⟩
    · rw [isOpen, hinvalid] at hopen'
      cases hopen'
    · exact hsettled'
  refine ⟨hsettled, fun o e hfault => ?_, ?_, ?_⟩
  · have hensures := step_ensures o hproper
    rw [hfault] at hensures
    exact hensures
  · intro a his los m' r hopen hsend
    have hensures : (m.sendBuffer a his los).Ensures NoFault Settles :=
      sendBuffer_ensures (hsettled hopen) hopen
    rw [hsend] at hensures
    exact hreturns hensures
  · intro a his los m₁ m' r hopen htake hsend
    have htaken := takeDw_settled (a := a) (hsettled hopen)
    rw [htake] at htaken
    have hensures : (m₁.sendBuffer_ his los).Ensures NoFault Settles :=
      sendBuffer'_ensures htaken.2 ((isOpen_congr htaken.1).trans hopen)
    rw [hsend] at hensures
    exact hreturns hensures

/-- A connected TCP socket. -/
def opened : RawSocket Unit where
  heap := ∅
  id := 1
  type := .connected
  protocol := .tcp
  sending := 0
  high := {}
  low := {}
  wbSize := 0
  warnSize := 0
  peer := ⟨0, []⟩
  lock := false
  dw := none
  poll := some false

/-- The theorem above after a write event that sends the package of the high
list and a part of the package of the low list. -/
theorem send_lists_settled_of_raised :
    ∃ m : RawSocket Unit, m.high = ⟨some 20, some 20⟩ ∧ m.low = {} ∧
      m.wbSize = 1 ∧ m.Settled := by
  obtain ⟨m, hrun, htest⟩ := Outcome.exists_of_passes
    (show (exec step opened
      [.send 1 ⟨(), .send, [1, 2, 3]⟩ .go 10,
        .send 1 ⟨(), .lowpriority, [4, 5]⟩ .go 20,
        .write 30 [.bytes 3] [.bytes 1]]).passes
          (fun m => m.isOpen && decide (m.high = ⟨some 20, some 20⟩) &&
            decide (m.low = {}) && decide (m.wbSize = 1)) = true from
      by decide +kernel)
  simp only [Bool.and_eq_true, decide_eq_true_eq] at htest
  obtain ⟨⟨⟨hopen, hhigh⟩, hlow⟩, hsize⟩ := htest
  have hsettled := send_lists_settled ⟨rfl, rfl, rfl, rfl⟩
    (reaches_of_exec hrun)
  exact ⟨m, hhigh, hlow, hsize, hsettled.1 hopen⟩

end RawSocket

end SkynetServer.SocketServer
