import SkynetServer.SocketBuffer.Model
import SkynetServer.Support.Links

/-!
# The chunks of a socket buffer

`Holds s l` says that the nodes of the buffer, one behind the other, are those
of `l`, with their chunks, and that the nodes of the free list are others.
-/

namespace SkynetServer.LuaSocket

open Function Links

/-- The pointers from node to node. -/
def State.next (s : State) (a : ℕ) : Option ℕ := (s.node a).next

/-- The addresses of the nodes. -/
abbrev addresses (l : List (ℕ × List UInt8)) : List ℕ := l.map Prod.fst

/-- The bytes of the chunks. -/
def bytes (l : List (ℕ × List UInt8)) : List UInt8 := (l.map Prod.snd).flatten

/-- A node has its chunk. -/
structure State.HasChunk (s : State) (x : ℕ × List UInt8) : Prop where
  msg : (s.node x.1).msg = some x.2
  sz : (s.node x.1).sz = x.2.length
  pos : 0 < x.2.length
  lt : x.1 < s.top

/-- The nodes of the buffer are those of `l`, and others are in the free list of
the pool. -/
structure State.Holds (s : State) (l : List (ℕ × List UInt8)) : Prop where
  path : Path s.next s.head (addresses l)
  tail : s.tail = (addresses l).getLast?
  chunk : ∀ x ∈ l, s.HasChunk x
  free : ∃ frees, Path s.next s.free_node frees ∧
    ∀ a ∈ frees, a < s.top ∧ a ∉ addresses l

section Changes

variable {s s' : State} {l : List (ℕ × List UInt8)} {x : ℕ × List UInt8} {a : ℕ}

theorem State.HasChunk.congr
    (h : s.HasChunk x) (hmsg : (s'.node x.1).msg = (s.node x.1).msg)
    (hsz : (s'.node x.1).sz = (s.node x.1).sz)
    (htop : s.top ≤ s'.top) : s'.HasChunk x :=
  ⟨hmsg.trans h.msg, hsz.trans h.sz, h.pos, Nat.lt_of_lt_of_le h.lt htop⟩

theorem State.next_update
    {node : BufferNode} (h : s'.node = update s.node a node) :
    s'.next = update s.next a node.next := by
  funext b
  rw [State.next, h]
  by_cases hb : b = a
  · rw [hb, update_self, update_self]
  · rw [update_of_ne hb, update_of_ne hb]
    rfl

/-- Only the pointer of a node changes. -/
theorem update_next (node : ℕ → BufferNode) (t b : ℕ) (next : Option ℕ) :
    (update node t { node t with next := next } b).msg = (node b).msg ∧
      (update node t { node t with next := next } b).sz = (node b).sz := by
  by_cases hb : b = t
  · rw [hb, update_self]
    exact ⟨rfl, rfl⟩
  · rw [update_of_ne hb]
    exact ⟨rfl, rfl⟩

theorem holds_lnewbuffer : lnewbuffer.Holds [] :=
  ⟨rfl, rfl, List.forall_mem_nil _, [], rfl, List.forall_mem_nil _⟩

theorem ne_of_notMem (ha : a ∉ addresses l) (hx : x ∈ l) : x.1 ≠ a := by
  rintro rfl
  exact ha (List.mem_map_of_mem hx)

/-- The first node goes to the free list. -/
theorem State.Holds.return_free_node (h : s.Holds (x :: l)) :
    ∃ s', s.return_free_node = some s' ∧ s'.Holds l ∧ s'.offset = 0 ∧
      s'.size = s.size ∧ s'.top = s.top := by
  obtain ⟨frees, hfree, hfrees⟩ := h.free
  obtain ⟨hhead, hpath⟩ := h.path
  have hxl : x.1 ∉ addresses l := (List.nodup_cons.mp h.path.nodup).1
  have hxfrees : x.1 ∉ frees := fun hmem => (hfrees x.1 hmem).2
    List.mem_cons_self
  rw [State.return_free_node, hhead]
  refine ⟨_, rfl, ⟨?_, ?_, fun y hy => ?_, x.1 :: frees, ?_, ?_⟩,
    rfl, rfl, rfl⟩
  · rw [State.next_update rfl]
    exact hpath.update hxl
  · dsimp only
    cases l with
    | nil => exact if_pos hpath
    | cons y l =>
        rw [if_neg]
        · rw [h.tail]
          exact List.getLast?_cons_cons
        · rw [show (s.node x.1).next = some y.1 from hpath.1]
          exact Option.some_ne_none _
  · have hne := ne_of_notMem hxl hy
    refine (h.chunk y (List.mem_cons_of_mem x hy)).congr ?_ ?_ (Nat.le_refl _)
    · exact congrArg BufferNode.msg (update_of_ne hne _ _)
    · exact congrArg BufferNode.sz (update_of_ne hne _ _)
  · rw [State.next_update rfl]
    exact hfree.push hxfrees
  · refine List.forall_mem_cons.mpr ⟨⟨?_, hxl⟩, fun a ha => ?_⟩
    · exact (h.chunk x List.mem_cons_self).lt
    · obtain ⟨hlt, hmem⟩ := hfrees a ha
      exact ⟨hlt, fun h => hmem (List.mem_cons_of_mem _ h)⟩

/-- The node `a` is neither in the buffer nor behind itself in the free list. -/
structure State.Free (s : State) (l : List (ℕ × List UInt8)) (a : ℕ) :
    Prop where
  path : Path s.next s.head (addresses l)
  tail : s.tail = (addresses l).getLast?
  chunk : ∀ x ∈ l, s.HasChunk x
  lt : a < s.top
  notMem : a ∉ addresses l
  free : ∃ frees, Path s.next (s.next a) frees ∧
    ∀ b ∈ frees, b < s.top ∧ b ∉ addresses l ∧ b ≠ a

/-- The counters may change. -/
theorem State.Holds.with (h : s.Holds l) (size offset : ℤ) :
    { s with size := size, offset := offset }.Holds l :=
  ⟨h.path, h.tail, fun x hx => (h.chunk x hx).congr rfl rfl (Nat.le_refl _),
    h.free⟩

theorem State.Holds.lnewpool
    (h : s.Holds l) {n : ℕ} (hn : 0 < n) :
    (s.lnewpool n).Free l s.top := by
  obtain ⟨m, rfl⟩ : ∃ m, n = m + 1 := ⟨n - 1, by omega⟩
  have hold : ∀ x ∈ l, (s.lnewpool (m + 1)).node x.1 = s.node x.1 := by
    intro x hx
    have hlt := (h.chunk x hx).lt
    exact if_neg fun h => Nat.not_le.mpr hlt h.1
  have hmem : ∀ b ∈ addresses l, b < s.top := by
    intro b hb
    obtain ⟨x, hx, rfl⟩ := List.mem_map.mp hb
    exact (h.chunk x hx).lt
  have hnew : Path (s.lnewpool (m + 1)).next (some s.top)
      (s.top :: List.range' (s.top + 1) m) := by
    refine path_range' (n := m + 1) fun b hb hb' => ?_
    exact congrArg BufferNode.next (if_pos ⟨hb, hb'⟩)
  refine ⟨?_, h.tail, fun x hx => ?_, ?_, ?_, ?_⟩
  · refine h.path.congr fun b hb => ?_
    obtain ⟨x, hx, rfl⟩ := List.mem_map.mp hb
    exact congrArg BufferNode.next (hold x hx)
  · refine (h.chunk x hx).congr ?_ ?_ (Nat.le_add_right _ _)
    · rw [hold x hx]
    · rw [hold x hx]
  · exact Nat.lt_add_of_pos_right hn
  · exact fun h => Nat.lt_irrefl _ (hmem _ h)
  · refine ⟨_, hnew.2, fun b hb => ?_⟩
    obtain ⟨hle, hlt⟩ := List.mem_range'_1.mp hb
    refine ⟨?_, fun h => ?_, ?_⟩
    · change b < s.top + (m + 1)
      omega
    · have hb := hmem b h
      omega
    · omega

/-- A node is taken from the free list, or a chunk of nodes is added to the
pool. -/
theorem State.Holds.freeNode (h : s.Holds l) :
    s.freeNode.2.Free l s.freeNode.1 ∧ s.freeNode.2.head = s.head ∧
      s.freeNode.2.offset = s.offset ∧ s.freeNode.2.size = s.size := by
  rcases hnone : s.free_node with _ | a
  · have hpos : ∀ k, 0 < 8 <<< k := by
      intro k
      rw [Nat.shiftLeft_eq]
      exact Nat.mul_pos (by decide) (Nat.two_pow_pos k)
    have hnew : ∃ n tsz, 0 < n ∧
        s.freeNode = (s.top, { s.lnewpool n with tsz := tsz }) := by
      rw [State.freeNode, hnone]
      dsimp only
      refine ⟨_, _, ?_, rfl⟩
      split
      · split
        · exact hpos _
        · exact hpos _
      · split
        · exact hpos _
        · exact hpos _
    obtain ⟨n, tsz, hn, heq⟩ := hnew
    have hfree := h.lnewpool hn
    rw [heq]
    refine ⟨⟨hfree.path, hfree.tail, fun x hx => ?_, hfree.lt, hfree.notMem,
      hfree.free⟩, rfl, rfl, rfl⟩
    exact (hfree.chunk x hx).congr rfl rfl (Nat.le_refl _)
  · obtain ⟨frees, hfree, hfrees⟩ := h.free
    rw [hnone] at hfree
    cases frees with
    | nil => cases hfree
    | cons b frees =>
        have hnotMem := (List.nodup_cons.mp hfree.nodup).1
        obtain ⟨hab, hfree⟩ := hfree
        obtain rfl := Option.some.inj hab
        have heq : s.freeNode = (a, s) := by
          rw [State.freeNode, hnone]
        obtain ⟨hlt, hmem⟩ := hfrees a List.mem_cons_self
        rw [heq]
        refine ⟨⟨h.path, h.tail, h.chunk, hlt, hmem, frees, hfree, ?_⟩, rfl,
          rfl, rfl⟩
        intro b hb
        obtain ⟨hlt, hmem⟩ := hfrees b (List.mem_cons_of_mem a hb)
        refine ⟨hlt, hmem, ?_⟩
        rintro rfl
        exact hnotMem hb

/-- A chunk is put behind the last one. -/
theorem State.Free.append
    {msg : List UInt8} (h : s.Free l a) (hmsg : 0 < msg.length) :
    ∃ s', State.append
        { s with
          free_node := s.next a
          node := update s.node a ⟨msg, msg.length, none⟩ } a = some s' ∧
      s'.Holds (l ++ [(a, msg)]) ∧ s'.offset = s.offset ∧ s'.size = s.size := by
  obtain ⟨frees, hfree, hfrees⟩ := h.free
  have hafrees : a ∉ frees := fun hmem => (hfrees a hmem).2.2 rfl
  have hlast : addresses (l ++ [(a, msg)]) = addresses l ++ [a] :=
    List.map_append
  have hout : ∀ b ∈ frees, b < s.top ∧ b ∉ addresses (l ++ [(a, msg)]) := by
    intro b hb
    obtain ⟨hlt, hmem, hne⟩ := hfrees b hb
    refine ⟨hlt, ?_⟩
    rw [hlast, List.mem_append, List.mem_singleton]
    exact not_or.mpr ⟨hmem, hne⟩
  generalize hs : { s with
    free_node := s.next a
    node := update s.node a ⟨msg, msg.length, none⟩ } = s₁
  have htop : s₁.top = s.top := by rw [← hs]
  have hnode : s₁.node = update s.node a ⟨msg, msg.length, none⟩ := by
    rw [← hs]
  have hnext : s₁.next = update s.next a none := State.next_update hnode
  have hpath : Path s₁.next s₁.head (addresses l) := by
    rw [hnext, ← hs]
    exact h.path.update h.notMem
  have hfree₁ : Path s₁.next s₁.free_node frees := by
    rw [hnext, ← hs]
    exact hfree.update hafrees
  have hself : s₁.next a = none := by
    rw [hnext, update_self]
  have hchunk : ∀ x ∈ l ++ [(a, msg)], s₁.HasChunk x := by
    intro x hx
    rcases List.mem_append.mp hx with hx | hx
    · have hne := ne_of_notMem h.notMem hx
      refine (h.chunk x hx).congr ?_ ?_ (Nat.le_of_eq htop.symm)
      · rw [hnode, update_of_ne hne]
      · rw [hnode, update_of_ne hne]
    · obtain rfl := List.mem_singleton.mp hx
      refine ⟨?_, ?_, hmsg, ?_⟩
      · rw [hnode, update_self]
      · rw [hnode, update_self]
      · rw [htop]
        exact h.lt
  have htail : s₁.tail = (addresses l).getLast? := by
    rw [← hs]
    exact h.tail
  rcases hhead : s₁.head with _ | b
  · have hnil : addresses l = [] := by
      rw [hhead] at hpath
      cases hl : addresses l with
      | nil => rfl
      | cons b t =>
          rw [hl] at hpath
          cases hpath.1
    rw [hnil] at htail
    rw [State.append, hhead]
    dsimp only
    rw [if_pos (show s₁.tail = none from htail)]
    refine ⟨_, rfl, ⟨?_, ?_, fun x hx => ?_, frees, hfree₁, ?_⟩, ?_, ?_⟩
    · rw [hlast, hnil]
      exact ⟨rfl, hself⟩
    · rw [hlast, hnil]
      rfl
    · exact (hchunk x hx).congr rfl rfl (Nat.le_refl _)
    · rw [htop]
      exact hout
    · rw [← hs]
    · rw [← hs]
  · have hne : addresses l ≠ [] := by
      intro hnil
      rw [hnil, hhead] at hpath
      cases hpath
    obtain ⟨t, ht⟩ : ∃ t, (addresses l).getLast? = some t :=
      ⟨_, List.getLast?_eq_some_getLast hne⟩
    have htl : t ∈ addresses l := List.mem_of_getLast? ht
    rw [hhead] at hpath
    rw [State.append, hhead]
    dsimp only
    rw [htail, ht, Option.map_some]
    refine ⟨_, rfl, ⟨?_, ?_, fun x hx => ?_, frees, ?_, ?_⟩, ?_, ?_⟩
    · rw [State.next_update rfl, hlast]
      exact hpath.concat ht h.notMem hself
    · rw [hlast]
      exact List.getLast?_concat.symm
    · obtain ⟨hmsg', hsz'⟩ := update_next s₁.node t x.1 (some a)
      exact (hchunk x hx).congr hmsg' hsz' (Nat.le_refl _)
    · rw [State.next_update rfl]
      exact hfree₁.update fun hmem => (hfrees t hmem).2.1 htl
    · dsimp only
      rw [htop]
      exact hout
    · rw [← hs]
    · rw [← hs]

/-- `lpushbuffer` puts a chunk behind the others. -/
theorem State.Holds.lpushbuffer
    {msg : List UInt8} (h : s.Holds l) (hmsg : 0 < msg.length)
    (hint : int msg.length = msg.length)
    (hsize : int (s.size + msg.length) = s.size + msg.length) :
    ∃ a s', s.lpushbuffer msg = some (s.size + msg.length, s') ∧
      s'.Holds (l ++ [(a, msg)]) ∧ s'.offset = s.offset ∧
      s'.size = s.size + msg.length := by
  obtain ⟨hfree, hhead, hoffset, hsize'⟩ := h.freeNode
  obtain ⟨s', happend, hholds, hoffset', hsize''⟩ := hfree.append hmsg
  refine ⟨s.freeNode.1, { s' with size := s.size + msg.length }, ?_,
    hholds.with _ _, hoffset'.trans hoffset, rfl⟩
  rw [State.lpushbuffer, hint]
  rw [State.next] at happend
  rw [happend, Option.bind_some, hsize'', hsize', checked, if_pos hsize]
  rfl

end Changes

end SkynetServer.LuaSocket
