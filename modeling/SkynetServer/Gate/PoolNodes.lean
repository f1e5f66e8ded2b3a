import Mathlib.Data.List.Perm.Subperm
import SkynetServer.Gate.Databuffer
import SkynetServer.Gate.MessagePool
import SkynetServer.Support.Links

/-!
# Where the nodes of a pool are

`Holds s frees chain out` says which nodes are in the free list and in the lists
of the buffers; those of `out` have been taken out of both.
-/

namespace SkynetServer.Gate.Pool

open Function Links Transition

variable {κ : Type}

/-- The pointers from node to node. -/
def State.next (s : State κ) (a : ℕ) : Option ℕ := (s.node a).next

/-- The addresses of the nodes. -/
abbrev addresses (l : List (ℕ × List UInt8)) : List ℕ := l.map Prod.fst

/-- The chunks in the nodes. -/
abbrev chunks (l : List (ℕ × List UInt8)) : List (List UInt8) :=
  l.map Prod.snd

/-- A node has its chunk. -/
structure State.HasChunk (s : State κ) (x : ℕ × List UInt8) : Prop where
  buffer : (s.node x.1).buffer = some x.2
  size : (s.node x.1).size = x.2.length

/-- The nodes of the pool are those of `out`, those of the free list and those of
the lists of the buffers, and no node is at two of these places. -/
structure State.Holds
    (s : State κ) (frees : List ℕ) (chain : κ → List (ℕ × List UInt8))
    (out : List ℕ) : Prop where
  free : Path s.next s.freelist frees
  path : ∀ k, Path s.next (s.buffer k).head (addresses (chain k))
  tail : ∀ k, (s.buffer k).tail = (addresses (chain k)).getLast?
  chunk : ∀ k, ∀ x ∈ chain k, s.HasChunk x
  covers : ∀ a, a < s.top ↔
    a ∈ out ∨ a ∈ frees ∨ ∃ k, a ∈ addresses (chain k)
  outside : ∀ a ∈ out, a ∉ frees ∧ ∀ k, a ∉ addresses (chain k)
  apart : ∀ k, ∀ a ∈ addresses (chain k), a ∉ frees
  distinct : ∀ k k' a, a ∈ addresses (chain k) → a ∈ addresses (chain k') →
    k = k'

theorem holds_init : (State.init : State κ).Holds [] (fun _ => []) [] where
  free := rfl
  path _ := rfl
  tail _ := rfl
  chunk _ := List.forall_mem_nil _
  covers a := by
    have htop : (State.init : State κ).top = 0 := Nat.zero_mul _
    rw [htop]
    constructor
    · intro h
      exact absurd h (Nat.not_lt_zero a)
    · rintro (h | h | ⟨k, h⟩) <;> cases h
  outside := List.forall_mem_nil _
  apart _ := List.forall_mem_nil _
  distinct _ _ _ h := by cases h

section Changes

variable {s s' : State κ} {frees out : List ℕ}
variable {chain : κ → List (ℕ × List UInt8)} {a : ℕ} {x : ℕ × List UInt8}

theorem State.HasChunk.congr
    (h : s.HasChunk x) (hnode : s'.node x.1 = s.node x.1) :
    s'.HasChunk x :=
  ⟨by rw [hnode, h.buffer], by rw [hnode, h.size]⟩

theorem State.next_update
    {node : Message} (h : s'.node = update s.node a node) :
    s'.next = update s.next a node.next := by
  funext b
  rw [State.next, h]
  by_cases hb : b = a
  · rw [hb, update_self, update_self]
  · rw [update_of_ne hb, update_of_ne hb]
    rfl

/-- The counters of the buffers may change. -/
theorem State.Holds.congr
    (h : s.Holds frees chain out) (hnode : s'.node = s.node)
    (hpool : s'.pool = s.pool) (hfree : s'.freelist = s.freelist)
    (hhead : ∀ k, (s'.buffer k).head = (s.buffer k).head)
    (htail : ∀ k, (s'.buffer k).tail = (s.buffer k).tail) :
    s'.Holds frees chain out := by
  have hnext : s'.next = s.next := by
    funext b
    rw [State.next, State.next, hnode]
  have htop : s'.top = s.top := by
    rw [State.top, State.top, hpool]
  refine ⟨?_, fun k => ?_, fun k => (htail k).trans (h.tail k),
    fun k x hx => ?_, fun a => ?_, h.outside, h.apart, h.distinct⟩
  · rw [hnext, hfree]
    exact h.free
  · rw [hnext, hhead]
    exact h.path k
  · exact (h.chunk k x hx).congr (congrFun hnode x.1)
  · rw [htop]
    exact h.covers a

variable {l : List (ℕ × List UInt8)}

/-- A node is in one chain, which has it once. -/
theorem State.Holds.ne_of_mem
    (h : s.Holds frees chain out) {k k' : κ}
    (hk : chain k = x :: l) (hne : k' ≠ k) :
    x.1 ∉ addresses (chain k') := by
  intro hmem
  refine hne (h.distinct k' k x.1 hmem ?_)
  rw [hk]
  exact List.mem_cons_self

variable [DecidableEq κ] {k : κ}

/-- A field of the buffers that a change of one buffer leaves alone. -/
theorem field_update
    {α : Type} (f : Databuffer → α) {db : Databuffer}
    (h : f db = f (s.buffer k)) (k' : κ) :
    f (update s.buffer k db k') = f (s.buffer k') := by
  by_cases hk' : k' = k
  · rw [hk', update_self, h]
  · rw [update_of_ne hk']

/-- The list of one buffer loses its first node, which goes to the free list. -/
theorem State.Holds.returnMessage
    (h : s.Holds frees chain [])
    (hk : chain k = x :: l) :
    ∃ s', s.returnMessage k = some s' ∧
      s'.Holds (x.1 :: frees) (update chain k l) [] ∧
      (∀ k', (s'.buffer k').offset = (s.buffer k').offset) ∧
      (∀ k', (s'.buffer k').size = (s.buffer k').size) ∧
      s'.reads = s.reads ∧ s'.pool = s.pool := by
  have hpath := h.path k
  have htail := h.tail k
  rw [hk] at hpath htail
  have hxl : x.1 ∉ addresses l := (List.nodup_cons.mp hpath.nodup).1
  obtain ⟨hhead, hrest⟩ := hpath
  have hx : x.1 ∈ addresses (chain k) := by
    rw [hk]
    exact List.mem_cons_self
  have hkept : ∀ k' b, b ∈ addresses (update chain k l k') ↔
      b ∈ addresses (chain k') ∧ b ≠ x.1 := by
    intro k' b
    by_cases hk' : k' = k
    · subst hk'
      rw [update_self, hk]
      constructor
      · intro hb
        refine ⟨List.mem_cons_of_mem _ hb, ?_⟩
        rintro rfl
        exact hxl hb
      · rintro ⟨hb, hne⟩
        exact (List.mem_cons.mp hb).resolve_left hne
    · rw [update_of_ne hk']
      refine ⟨fun hb => ⟨hb, ?_⟩, And.left⟩
      rintro rfl
      exact h.ne_of_mem hk hk' hb
  have hassert : ¬((s.node x.1).next = none ∧ (s.buffer k).tail ≠ some x.1) := by
    rintro ⟨hnone, hne⟩
    cases l with
    | nil => exact hne htail
    | cons y l =>
        rw [show (s.node x.1).next = some y.1 from hrest.1] at hnone
        cases hnone
  rw [State.returnMessage]
  dsimp only
  rw [hhead, Option.bind_some, if_neg hassert]
  refine ⟨_, rfl, ⟨?_, fun k' => ?_, fun k' => ?_, fun k' y hy => ?_,
    fun b => ?_, List.forall_mem_nil _, fun k' b hb => ?_,
    fun k₁ k₂ b hb hb' => ?_⟩, fun k' => ?_, fun k' => ?_, rfl, rfl⟩
  · rw [State.next_update rfl]
    exact h.free.push (h.apart k _ hx)
  · rw [State.next_update rfl]
    by_cases hk' : k' = k
    · subst hk'
      rw [update_self]
      dsimp only
      rw [update_self]
      exact hrest.update hxl
    · rw [update_of_ne hk']
      dsimp only
      rw [update_of_ne hk']
      exact (h.path k').update (h.ne_of_mem hk hk')
  · by_cases hk' : k' = k
    · subst hk'
      rw [update_self]
      dsimp only
      rw [update_self]
      cases l with
      | nil => exact if_pos hrest
      | cons y l =>
          dsimp only
          rw [if_neg, htail]
          · exact List.getLast?_cons_cons
          · rw [show (s.node x.1).next = some y.1 from hrest.1]
            exact Option.some_ne_none _
    · rw [update_of_ne hk']
      dsimp only
      rw [update_of_ne hk']
      exact h.tail k'
  · obtain ⟨hmem, hne⟩ := (hkept k' y.1).mp (List.mem_map_of_mem hy)
    have hold : y ∈ chain k' := by
      by_cases hk' : k' = k
      · subst hk'
        rw [update_self] at hy
        rw [hk]
        exact List.mem_cons_of_mem _ hy
      · rwa [update_of_ne hk'] at hy
    exact (h.chunk k' y hold).congr (update_of_ne hne _ _)
  · show b < s.top ↔ _
    rw [h.covers b, List.mem_cons]
    constructor
    · rintro (hb | hb | ⟨k', hb⟩)
      · cases hb
      · exact Or.inr (Or.inl (Or.inr hb))
      · by_cases hne : b = x.1
        · exact Or.inr (Or.inl (Or.inl hne))
        · exact Or.inr (Or.inr ⟨k', (hkept k' b).mpr ⟨hb, hne⟩⟩)
    · rintro (hb | (rfl | hb) | ⟨k', hb⟩)
      · cases hb
      · exact Or.inr (Or.inr ⟨k, hx⟩)
      · exact Or.inr (Or.inl hb)
      · exact Or.inr (Or.inr ⟨k', ((hkept k' b).mp hb).1⟩)
  · obtain ⟨hmem, hne⟩ := (hkept k' b).mp hb
    rw [List.mem_cons, not_or]
    exact ⟨hne, h.apart k' b hmem⟩
  · exact h.distinct k₁ k₂ b ((hkept k₁ b).mp hb).1 ((hkept k₂ b).mp hb').1
  · refine field_update Databuffer.offset ?_ k'
    rfl
  · refine field_update Databuffer.size ?_ k'
    rfl

omit [DecidableEq κ] in
/-- A node is taken from the free list, or a block is added to the pool. -/
theorem State.Holds.freeMessage (h : s.Holds frees chain []) :
    ∃ frees', s.freeMessage.2.Holds frees' chain [s.freeMessage.1] ∧
      s.freeMessage.2.buffer = s.buffer ∧ s.freeMessage.2.reads = s.reads := by
  have hfree := h.free
  rw [State.freeMessage]
  cases hlist : s.freelist with
  | some m =>
      rw [hlist] at hfree
      cases frees with
      | nil => cases hfree
      | cons b frees =>
          have hnodup := List.nodup_cons.mp hfree.nodup
          obtain ⟨hm, hrest⟩ := hfree
          obtain rfl := Option.some.inj hm
          refine ⟨frees, ⟨hrest, h.path, h.tail, fun k x hx =>
            (h.chunk k x hx).congr rfl, fun a => ?_, ?_, fun k a ha => ?_,
            h.distinct⟩, rfl, rfl⟩
          · show a < s.top ↔ _
            rw [h.covers a, List.mem_cons, List.mem_singleton]
            constructor
            · rintro (ha | (ha | ha) | ha)
              · cases ha
              · exact Or.inl ha
              · exact Or.inr (Or.inl ha)
              · exact Or.inr (Or.inr ha)
            · rintro (ha | ha | ha)
              · exact Or.inr (Or.inl (Or.inl ha))
              · exact Or.inr (Or.inl (Or.inr ha))
              · exact Or.inr (Or.inr ha)
          · refine List.forall_mem_singleton.mpr ⟨hnodup.1, fun k hmem => ?_⟩
            exact h.apart k m hmem List.mem_cons_self
          · exact fun hmem => h.apart k a ha (List.mem_cons_of_mem m hmem)
  | none =>
      rw [hlist] at hfree
      have hnil : frees = [] := by
        cases frees with
        | nil => rfl
        | cons b frees => cases hfree.1
      subst hnil
      dsimp only
      generalize hs : ({ s with
        node := fun a =>
          if s.top ≤ a ∧ a < s.top + MESSAGEPOOL then
            ⟨none, 0, if a + 1 = s.top + MESSAGEPOOL then none else some (a + 1)⟩
          else s.node a
        pool := s.pool + 1
        freelist := some (s.top + 1) } : State κ) = s₁
      have hbelow : ∀ k, ∀ a ∈ addresses (chain k), a < s.top :=
        fun k a ha => (h.covers a).mpr (Or.inr (Or.inr ⟨k, ha⟩))
      have htop : s₁.top = s.top + MESSAGEPOOL := by
        rw [← hs]
        exact Nat.succ_mul _ _
      have hold : ∀ a < s.top, s₁.node a = s.node a := by
        intro a ha
        rw [← hs]
        exact if_neg fun hblock => Nat.not_le.mpr ha hblock.1
      have hbuffer : s₁.buffer = s.buffer := by rw [← hs]
      have hnew : Path s₁.next (some s.top)
          (s.top :: List.range' (s.top + 1) 1022) := by
        refine path_range' (n := 1023) fun b hb hb' => ?_
        rw [State.next, ← hs]
        exact congrArg Message.next (if_pos ⟨hb, hb'⟩)
      refine ⟨List.range' (s.top + 1) 1022, ⟨?_, fun k => ?_, fun k => ?_,
        fun k x hx => ?_, fun a => ?_, ?_, fun k a ha => ?_, h.distinct⟩,
        rfl, rfl⟩
      · have hsecond : s₁.freelist = s₁.next s.top := by
          rw [State.next, ← hs]
          dsimp only
          rw [if_pos ⟨Nat.le_refl _, Nat.lt_add_of_pos_right (by decide)⟩,
            if_neg (by simp [MESSAGEPOOL])]
        rw [hsecond]
        exact hnew.2
      · rw [hbuffer]
        refine (h.path k).congr fun a ha => ?_
        rw [State.next, hold a (hbelow k a ha), State.next]
      · rw [hbuffer]
        exact h.tail k
      · exact (h.chunk k x hx).congr
          (hold x.1 (hbelow k x.1 (List.mem_map_of_mem hx)))
      · rw [htop, List.mem_singleton, List.mem_range'_1]
        have hlower := h.covers a
        simp only [List.not_mem_nil, false_or] at hlower
        constructor
        · intro ha
          by_cases hlt : a < s.top
          · exact Or.inr (Or.inr (hlower.mp hlt))
          · rw [MESSAGEPOOL] at ha
            omega
        · rintro (rfl | hrange | hmem)
          · exact Nat.lt_add_of_pos_right (by decide)
          · rw [MESSAGEPOOL]
            omega
          · exact Nat.lt_add_right _ (hlower.mpr hmem)
      · refine List.forall_mem_singleton.mpr ⟨fun hmem => ?_, fun k hmem => ?_⟩
        · have hle := (List.mem_range'_1.mp hmem).1
          omega
        · exact Nat.lt_irrefl _ (hbelow k _ hmem)
      · intro hmem
        have hle := (List.mem_range'_1.mp hmem).1
        have hlt := hbelow k a ha
        omega

omit [DecidableEq κ] in
/-- A node that is out gets its chunk. -/
theorem State.Holds.setNode
    {m : ℕ} (h : s.Holds frees chain [m]) (node : Message) :
    { s with node := update s.node m node }.Holds frees chain [m] := by
  obtain ⟨hfrees, hchains⟩ := h.outside m (List.mem_singleton_self m)
  refine ⟨?_, fun k => ?_, h.tail, fun k x hx => ?_, h.covers, h.outside,
    h.apart, h.distinct⟩
  · rw [State.next_update rfl]
    exact h.free.update hfrees
  · rw [State.next_update rfl]
    exact (h.path k).update (hchains k)
  · refine (h.chunk k x hx).congr (update_of_ne ?_ _ _)
    rintro rfl
    exact hchains k (List.mem_map_of_mem hx)

variable {data : List UInt8}

/-- The places of the nodes after the node that is out is put behind a list. -/
theorem State.Holds.concat
    {m : ℕ} (h : s.Holds frees chain [m])
    (hfree : Path s'.next s'.freelist frees)
    (hown : Path s'.next (s'.buffer k).head (addresses (chain k) ++ [m]))
    (hlast : (s'.buffer k).tail = m)
    (hpath : ∀ k', k' ≠ k → Path s'.next (s'.buffer k').head
      (addresses (chain k')))
    (htail : ∀ k', k' ≠ k → (s'.buffer k').tail = (s.buffer k').tail)
    (hchunk : ∀ x, s.HasChunk x → s'.HasChunk x)
    (hdata : s'.HasChunk (m, data)) (htop : s'.top = s.top) :
    s'.Holds frees (update chain k (chain k ++ [(m, data)])) [] := by
  obtain ⟨hfrees, hchains⟩ := h.outside m (List.mem_singleton_self m)
  have haddresses : addresses (chain k ++ [(m, data)]) =
      addresses (chain k) ++ [m] := List.map_append
  have hmem : ∀ k' b,
      b ∈ addresses (update chain k (chain k ++ [(m, data)]) k') ↔
        b ∈ addresses (chain k') ∨ k' = k ∧ b = m := by
    intro k' b
    by_cases hk' : k' = k
    · subst hk'
      rw [update_self, haddresses, List.mem_append, List.mem_singleton]
      simp
    · rw [update_of_ne hk']
      simp [hk']
  refine ⟨hfree, fun k' => ?_, fun k' => ?_, fun k' x hx => ?_, fun a => ?_,
    List.forall_mem_nil _, fun k' a ha => ?_, fun k₁ k₂ a ha ha' => ?_⟩
  · by_cases hk' : k' = k
    · rw [hk', update_self, haddresses]
      exact hown
    · rw [update_of_ne hk']
      exact hpath k' hk'
  · by_cases hk' : k' = k
    · rw [hk', update_self, haddresses, hlast]
      exact List.getLast?_concat.symm
    · rw [update_of_ne hk', htail k' hk']
      exact h.tail k'
  · by_cases hk' : k' = k
    · rw [hk', update_self] at hx
      rcases List.mem_append.mp hx with hx | hx
      · exact hchunk x (h.chunk k x hx)
      · rwa [List.mem_singleton.mp hx]
    · rw [update_of_ne hk'] at hx
      exact hchunk x (h.chunk k' x hx)
  · rw [htop, h.covers a, List.mem_singleton]
    constructor
    · rintro (rfl | ha | ⟨k', ha⟩)
      · exact Or.inr (Or.inr ⟨k, (hmem k a).mpr (Or.inr ⟨rfl, rfl⟩)⟩)
      · exact Or.inr (Or.inl ha)
      · exact Or.inr (Or.inr ⟨k', (hmem k' a).mpr (Or.inl ha)⟩)
    · rintro (ha | ha | ⟨k', ha⟩)
      · cases ha
      · exact Or.inr (Or.inl ha)
      · rcases (hmem k' a).mp ha with ha | ⟨-, rfl⟩
        · exact Or.inr (Or.inr ⟨k', ha⟩)
        · exact Or.inl rfl
  · rcases (hmem k' a).mp ha with ha | ⟨-, rfl⟩
    · exact h.apart k' a ha
    · exact hfrees
  · rcases (hmem k₁ a).mp ha with hold | ⟨hk₁, ham⟩
    · rcases (hmem k₂ a).mp ha' with hold' | ⟨-, ham⟩
      · exact h.distinct k₁ k₂ a hold hold'
      · rw [ham] at hold
        exact absurd hold (hchains k₁)
    · rcases (hmem k₂ a).mp ha' with hold' | ⟨hk₂, -⟩
      · rw [ham] at hold'
        exact absurd hold' (hchains k₂)
      · rw [hk₁, hk₂]

/-- The node that is out is put behind the last one of a buffer. -/
theorem State.Holds.append
    {m : ℕ} (h : s.Holds frees chain [m])
    (hdata : s.HasChunk (m, data)) (hnone : s.next m = none) (k : κ) :
    ∃ s', s.append k m = some s' ∧
      s'.Holds frees (update chain k (chain k ++ [(m, data)])) [] ∧
      (∀ k', (s'.buffer k').offset = (s.buffer k').offset) ∧
      (∀ k', (s'.buffer k').size = (s.buffer k').size) ∧
      s'.reads = s.reads := by
  obtain ⟨hfrees, hchains⟩ := h.outside m (List.mem_singleton_self m)
  have hpath := h.path k
  have htail := h.tail k
  rw [State.append]
  dsimp only
  cases hlist : addresses (chain k) with
  | nil =>
      rw [hlist] at hpath htail
      rw [show (s.buffer k).head = none from hpath]
      dsimp only
      rw [if_pos (show (s.buffer k).tail = none from htail)]
      refine ⟨_, rfl, h.concat h.free ?_ ?_ (fun k' hk' => ?_)
        (fun k' hk' => ?_) (fun _ hx => hx.congr rfl) (hdata.congr rfl) rfl,
        fun k' => ?_, fun k' => ?_, rfl⟩
      · rw [hlist, State.setBuffer]
        dsimp only
        rw [update_self]
        exact ⟨rfl, hnone⟩
      · rw [State.setBuffer]
        dsimp only
        rw [update_self]
      · rw [State.setBuffer]
        dsimp only
        rw [update_of_ne hk']
        exact h.path k'
      · rw [State.setBuffer]
        dsimp only
        rw [update_of_ne hk']
      · refine field_update Databuffer.offset ?_ k'
        rfl
      · refine field_update Databuffer.size ?_ k'
        rfl
  | cons b rest =>
      obtain ⟨t, ht⟩ : ∃ t, (addresses (chain k)).getLast? = some t :=
        ⟨_, List.getLast?_eq_some_getLast fun hnil => by
          rw [hlist] at hnil
          cases hnil⟩
      have htl : t ∈ addresses (chain k) := List.mem_of_getLast? ht
      have hhead : (s.buffer k).head = some b := by
        rw [hlist] at hpath
        exact hpath.1
      have hmt : m ≠ t := by
        rintro rfl
        exact hchains k htl
      rw [ht] at htail
      rw [hhead]
      dsimp only
      rw [htail, Option.map_some]
      refine ⟨_, rfl, h.concat ?_ ?_ ?_ (fun k' hk' => ?_) (fun k' hk' => ?_)
        (fun x hx => ?_) (hdata.congr (update_of_ne hmt _ _)) rfl,
        fun k' => ?_, fun k' => ?_, rfl⟩
      · rw [State.next_update rfl]
        exact h.free.update (h.apart k t htl)
      · rw [State.next_update rfl]
        dsimp only
        rw [update_self]
        have hown := hpath.concat ht (hchains k) hnone
        rwa [hhead] at hown
      · dsimp only
        rw [update_self]
      · rw [State.next_update rfl]
        dsimp only
        rw [update_of_ne hk']
        refine (h.path k').update fun hmem => hk' ?_
        exact h.distinct k' k t hmem htl
      · dsimp only
        rw [update_of_ne hk']
      · by_cases hxt : x.1 = t
        · refine ⟨?_, ?_⟩
          · dsimp only
            rw [hxt, update_self]
            dsimp only
            rw [← hxt, hx.buffer]
          · dsimp only
            rw [hxt, update_self]
            dsimp only
            rw [← hxt, hx.size]
        · exact hx.congr (update_of_ne hxt _ _)
      · refine field_update Databuffer.offset ?_ k'
        rfl
      · refine field_update Databuffer.size ?_ k'
        rfl

/-! ## Reading -/

omit [DecidableEq κ] in
theorem State.HasChunk.copy
    (h : s.HasChunk x) {o n : ℕ}
    (hn : o + n ≤ x.2.length) :
    s.copy x.1 o n = some ((x.2.drop o).take n) := by
  rw [State.copy, h.buffer, Option.bind_some, if_pos (by omega),
    Int.toNat_natCast, Int.toNat_natCast]

theorem State.Holds.setOffset
    (h : s.Holds frees chain out) (k : κ) (offset : ℤ) :
    (s.setOffset k offset).Holds frees chain out := by
  refine h.congr rfl rfl rfl (fun k' => ?_) fun k' => ?_
  · refine field_update Databuffer.head ?_ k'
    rfl
  · refine field_update Databuffer.tail ?_ k'
    rfl

theorem State.Holds.setSize
    (h : s.Holds frees chain out) (k : κ) (size : ℤ) :
    (s.setSize k size).Holds frees chain out := by
  refine h.congr rfl rfl rfl (fun k' => ?_) fun k' => ?_
  · refine field_update Databuffer.head ?_ k'
    rfl
  · refine field_update Databuffer.tail ?_ k'
    rfl

theorem setSize_self (k : κ) (size : ℤ) :
    ((s.setSize k size).buffer k).size = size := by
  rw [State.setSize, State.setBuffer]
  dsimp only
  rw [update_self]

theorem setSize_of_ne {k k' : κ} (hk' : k' ≠ k) (size : ℤ) :
    (s.setSize k size).buffer k' = s.buffer k' :=
  update_of_ne hk' _ _

theorem setSize_offset (k : κ) (size : ℤ) (k' : κ) :
    ((s.setSize k size).buffer k').offset = (s.buffer k').offset := by
  refine field_update Databuffer.offset ?_ k'
  rfl

theorem setOffset_self (k : κ) (offset : ℤ) :
    ((s.setOffset k offset).buffer k).offset = offset := by
  rw [State.setOffset, State.setBuffer]
  dsimp only
  rw [update_self]

theorem setOffset_of_ne {k k' : κ} (hk' : k' ≠ k) (offset : ℤ) :
    (s.setOffset k offset).buffer k' = s.buffer k' :=
  update_of_ne hk' _ _

theorem setOffset_size (k : κ) (offset : ℤ) (k' : κ) :
    ((s.setOffset k offset).buffer k').size = (s.buffer k').size := by
  refine field_update Databuffer.size ?_ k'
  rfl

/-- Only the offset of one buffer has changed, and nodes. -/
structure Kept (s s' : State κ) (k : κ) : Prop where
  offset : ∀ k', k' ≠ k → (s'.buffer k').offset = (s.buffer k').offset
  size : ∀ k', (s'.buffer k').size = (s.buffer k').size
  reads : s'.reads = s.reads

theorem kept_setOffset (k : κ) (offset : ℤ) :
    Kept s (s.setOffset k offset) k where
  offset _ hk' := congrArg Databuffer.offset (setOffset_of_ne hk' offset)
  size := setOffset_size k offset
  reads := rfl

omit [DecidableEq κ] in
theorem Kept.trans
    {s'' : State κ} (h : Kept s s' k) (h' : Kept s' s'' k) :
    Kept s s'' k where
  offset k' hk' := (h'.offset k' hk').trans (h.offset k' hk')
  size k' := (h'.size k').trans (h.size k')
  reads := h'.reads.trans h.reads

/-- The loop does with the nodes what `readMessages` does with their chunks. -/
theorem State.Holds.readLoop
    (h : s.Holds frees chain [])
    (hk : chain k = l) {o : ℕ} (hoffset : (s.buffer k).offset = o)
    (ho : o ≤ ((chunks l).headD []).length) {n sz o' : ℕ} (hn : l.length ≤ n)
    (b : List UInt8) {messages : List (List UInt8)}
    (hread : readMessages (chunks l) o sz = some (data, messages, o')) :
    ∃ s' frees' l', State.readLoop k n sz b s = some (b ++ data, s') ∧
      s'.Holds frees' (update chain k l') [] ∧ chunks l' = messages ∧
      (s'.buffer k).offset = o' ∧ Kept s s' k := by
  induction l generalizing s frees chain o n sz b data with
  | nil => cases hread
  | cons x l ih =>
      obtain ⟨n, rfl⟩ := Nat.exists_eq_add_of_le' (Nat.one_le_of_lt hn)
      have hhead : (s.buffer k).head = some x.1 := by
        have hpath := h.path k
        rw [hk] at hpath
        exact hpath.1
      have hx : s.HasChunk x := h.chunk k x (by
        rw [hk]
        exact List.mem_cons_self)
      have ho : o ≤ x.2.length := ho
      rw [chunks, List.map_cons, readMessages] at hread
      rw [State.readLoop]
      dsimp only
      rw [hhead, Option.bind_some, hoffset, hx.size]
      have hbsz : ((x.2.length : ℤ) - o) = (x.2.length - o : ℕ) := by omega
      rw [hbsz]
      by_cases hmore : x.2.length - o > sz
      · rw [if_pos hmore] at hread
        cases hread
        rw [if_pos (by omega), hx.copy (by omega)]
        refine ⟨_, frees, x :: l, rfl, ?_, rfl, setOffset_self k _,
          kept_setOffset k _⟩
        rw [← hk, update_eq_self]
        exact h.setOffset k _
      rw [if_neg hmore] at hread
      rw [if_neg (by omega)]
      by_cases heq : x.2.length - o = sz
      · rw [if_pos heq] at hread
        cases hread
        obtain ⟨s', hreturn, hholds, hoffset', hsize, hreads, -⟩ :=
          (h.setOffset k 0).returnMessage hk
        rw [if_pos (by omega), hx.copy (by omega), Option.bind_some, hreturn]
        refine ⟨s', _, l, rfl, hholds, rfl, ?_, ?_⟩
        · exact (hoffset' k).trans (setOffset_self k 0)
        · exact (kept_setOffset k 0).trans
            ⟨fun k' _ => hoffset' k', hsize, hreads⟩
      · rw [if_neg heq] at hread
        obtain ⟨s₁, hreturn, hholds, hoffset', hsize, hreads, -⟩ :=
          h.returnMessage hk
        rw [if_neg (by omega), hx.copy (by omega), Option.bind_some, hreturn,
          Option.bind_some]
        cases hrest : readMessages (chunks l) 0 (sz - (x.2.length - o)) with
        | none =>
            rw [hrest] at hread
            cases hread
        | some r =>
            obtain ⟨bytes, messages', offset'⟩ := r
            rw [hrest] at hread
            cases hread
            have hsz : (sz : ℤ) - (x.2.length - o : ℕ) =
                (sz - (x.2.length - o) : ℕ) := by omega
            obtain ⟨s', frees', l', hloop, hholds', hchunks, hnew, hkept⟩ :=
              ih (hholds.setOffset k 0) (update_self ..) (setOffset_self k 0)
                (Nat.zero_le _) (Nat.le_of_succ_le_succ hn)
                (b ++ (x.2.drop o).take (x.2.length - o)) hrest
            rw [update_idem] at hholds'
            rw [hsz, hloop, List.append_assoc]
            refine ⟨s', frees', l', rfl, hholds', hchunks, hnew, ?_⟩
            have hfirst : Kept s s₁ k :=
              ⟨fun k' _ => hoffset' k', hsize, hreads⟩
            exact (hfirst.trans (kept_setOffset k 0)).trans hkept

/-- The loop of `databuffer_clear` returns all nodes. -/
theorem State.Holds.clearLoop
    (h : s.Holds frees chain [])
    (hk : chain k = l) {n : ℕ} (hn : l.length ≤ n) :
    ∃ s' frees', State.clearLoop k n s = some s' ∧
      s'.Holds frees' (update chain k []) [] ∧ Kept s s' k := by
  induction l generalizing s frees chain n with
  | nil =>
      have hhead : (s.buffer k).head = none := by
        have hpath := h.path k
        rw [hk] at hpath
        exact hpath
      have hsame : update chain k [] = chain := by
        rw [← hk, update_eq_self]
      have hdone : State.clearLoop k n s = some s := by
        cases n with
        | zero | succ n => exact if_pos hhead
      rw [hsame, hdone]
      exact ⟨s, frees, rfl, h, fun _ _ => rfl, fun _ => rfl, rfl⟩
  | cons x l ih =>
      obtain ⟨n, rfl⟩ := Nat.exists_eq_add_of_le' (Nat.one_le_of_lt hn)
      have hhead : (s.buffer k).head ≠ none := by
        have hpath := h.path k
        rw [hk] at hpath
        rw [hpath.1]
        exact Option.some_ne_none _
      obtain ⟨s₁, hreturn, hholds, hoffset, hsize, hreads, -⟩ :=
        h.returnMessage hk
      obtain ⟨s', frees', hloop, hholds', hkept⟩ :=
        ih hholds (update_self ..) (Nat.le_of_succ_le_succ hn)
      rw [update_idem] at hholds'
      have hfirst : Kept s s₁ k := ⟨fun k' _ => hoffset k', hsize, hreads⟩
      refine ⟨s', frees', ?_, hholds', hfirst.trans hkept⟩
      rw [State.clearLoop, if_neg hhead, hreturn, Option.bind_some, hloop]

omit [DecidableEq κ] in
/-- A list has no more nodes than the pool. -/
theorem State.Holds.length_le (h : s.Holds frees chain out) (k : κ) :
    (chain k).length ≤ s.top := by
  have hsub : addresses (chain k) ⊆ List.range s.top := by
    intro a ha
    exact List.mem_range.mpr ((h.covers a).mpr (Or.inr (Or.inr ⟨k, ha⟩)))
  have hle := (List.subperm_of_subset (h.path k).nodup hsub).length_le
  rwa [List.length_map, List.length_range] at hle

end Changes

end SkynetServer.Gate.Pool
