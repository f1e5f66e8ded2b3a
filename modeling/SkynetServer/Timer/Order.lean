import SkynetServer.Timer.Dispatch

/-!
# Timer nodes of one tick are dispatched in the order they were added

The list in which a pending node waits is determined by its due tick and the
clock, however it came there.  Two nodes that are due in the same tick are
therefore always in the same list, where the one added first stands first:
`add_node` appends, and `move_list` files a list again from its head.
-/

namespace SkynetServer.TimerWheel

open Transition

/-- Of two nodes due in the same tick, the first one was added first. -/
def Before (x y : TimerNode) : Prop := x.due = y.due → x.serial < y.serial

/-- Every list of the wheel is in order. -/
structure Timer.InOrder (T : Timer) : Prop where
  near : ∀ i, (T.near i).Pairwise Before
  level : ∀ l j, (T.t l j).Pairwise Before

/-- The node is in some list of the wheel. -/
def Timer.Has (T : Timer) (x : TimerNode) : Prop :=
  (∃ i, x ∈ T.near i) ∨ ∃ l j, x ∈ T.t l j

/-! ## Filing -/

section Filing

variable {T : Timer} {n : ℕ} {x : TimerNode}

theorem pairwise_append_singleton
    {nodes : List TimerNode} (hnodes : nodes.Pairwise Before)
    (hlast : ∀ y ∈ nodes, Before y x) :
    (nodes ++ [x]).Pairwise Before := by
  rw [List.pairwise_append]
  refine ⟨hnodes, List.pairwise_singleton _ _, ?_⟩
  intro y hy z hz
  rw [List.mem_singleton.mp hz]
  exact hlast y hy

theorem Timer.InOrder.linkNear
    (h : T.InOrder) (i : ℕ) (hlast : ∀ y, T.Has y → Before y x) :
    (T.linkNear i x).InOrder := by
  refine ⟨?_, h.level⟩
  intro k
  by_cases hk : k = i
  · subst hk
    simp only [Timer.linkNear, Function.update_self]
    apply pairwise_append_singleton (h.near k)
    intro y hy
    exact hlast y (Or.inl ⟨k, hy⟩)
  · simp only [Timer.linkNear, Function.update_of_ne hk]
    exact h.near k

theorem Timer.setLevel_apply (T : Timer) (i j l k : ℕ)
    (nodes : List TimerNode) :
    (T.setLevel i j nodes).t l k =
      if l = i ∧ k = j then nodes else T.t l k := by
  by_cases hl : l = i
  · subst hl
    by_cases hk : k = j
    · subst hk
      simp [Timer.setLevel]
    · simp [Timer.setLevel, hk]
  · simp [Timer.setLevel, hl]

theorem Timer.InOrder.setLevel
    (h : T.InOrder) (i j : ℕ) {nodes : List TimerNode}
    (hnodes : nodes.Pairwise Before) :
    (T.setLevel i j nodes).InOrder := by
  refine ⟨h.near, ?_⟩
  intro l k
  rw [T.setLevel_apply]
  split
  · exact hnodes
  · exact h.level l k

theorem Timer.InOrder.linkLevel
    (h : T.InOrder) (i j : ℕ) (hlast : ∀ y, T.Has y → Before y x) :
    (T.linkLevel i j x).InOrder := by
  apply h.setLevel
  apply pairwise_append_singleton (h.level i j)
  intro y hy
  exact hlast y (Or.inr ⟨i, j, hy⟩)

/-- Filing a node added after all others of its tick keeps the order. -/
theorem Timer.InOrder.addNode
    (h : T.InOrder) (hplaced : Placed T n) (hx : Live n x)
    (hlast : ∀ y, T.Has y → Before y x) : (addNode T x).InOrder := by
  rcases addNode_cases hplaced hx with ⟨-, heq⟩ | ⟨l, -, -, -, heq⟩
  · rw [heq]
    exact h.linkNear _ hlast
  · rw [heq]
    exact h.linkLevel _ _ hlast

theorem Timer.has_addNode
    (hplaced : Placed T n) (hx : Live n x) {y : TimerNode}
    (hy : (SkynetServer.TimerWheel.addNode T x).Has y) : T.Has y ∨ y = x := by
  rcases addNode_cases hplaced hx with ⟨-, heq⟩ | ⟨l, -, -, -, heq⟩
  · rw [heq] at hy
    rcases hy with ⟨i, hy⟩ | hy
    · rcases mem_linkNear.mp hy with hy | ⟨-, rfl⟩
      · exact Or.inl (Or.inl ⟨i, hy⟩)
      · exact Or.inr rfl
    · exact Or.inl (Or.inr hy)
  · rw [heq] at hy
    rcases hy with hy | ⟨i, j, hy⟩
    · exact Or.inl (Or.inl hy)
    · rcases mem_linkLevel.mp hy with hy | ⟨-, -, rfl⟩
      · exact Or.inl (Or.inr ⟨i, j, hy⟩)
      · exact Or.inr rfl

/-- Filing the nodes of an ordered list from its head keeps the order, when
no node of the wheel is due with one of them unless it was added before. -/
theorem Timer.InOrder.foldl_addNode
    (nodes : List TimerNode) (h : T.InOrder) (hplaced : Placed T n)
    (hlive : ∀ x ∈ nodes, Live n x) (hnodes : nodes.Pairwise Before)
    (hlast : ∀ y, T.Has y → ∀ x ∈ nodes, Before y x) :
    (nodes.foldl SkynetServer.TimerWheel.addNode T).InOrder := by
  induction nodes generalizing T with
  | nil => exact h
  | cons x rest ih =>
      have hx : Live n x := hlive x List.mem_cons_self
      obtain ⟨hfirst, hrest⟩ := List.pairwise_cons.mp hnodes
      apply ih
      · exact h.addNode hplaced hx fun y hy => hlast y hy x List.mem_cons_self
      · exact addNode_placed hplaced hx
      · intro z hz
        exact hlive z (List.mem_cons_of_mem x hz)
      · exact hrest
      · intro y hy z hz
        rcases Timer.has_addNode hplaced hx hy with hy | rfl
        · exact hlast y hy z (List.mem_cons_of_mem x hz)
        · exact hfirst z hz

end Filing

/-! ## Nodes of one tick share a list -/

section Sharing

variable {T : Timer} {n : ℕ} {x y : TimerNode}

theorem span_dvd_span {l l' : ℕ} (h : l ≤ l') : span l ∣ span l' := by
  apply Nat.pow_dvd_pow
  unfold timeNearShift timeLevelShift
  omega

theorem div_span_eq {a b l l' : ℕ} (h : l ≤ l')
    (heq : a / span l = b / span l) : a / span l' = b / span l' := by
  obtain ⟨k, hk⟩ := span_dvd_span h
  rw [hk, ← Nat.div_div_eq_div_mul, ← Nat.div_div_eq_div_mul, heq]

theorem Placed.level_le
    (h : Placed T n) {l j l' j' : ℕ} (hx : x ∈ T.t l j) (hy : y ∈ T.t l' j')
    (hdue : x.due = y.due) : l' ≤ l := by
  obtain ⟨-, hl, hlt, hup, -⟩ := h.level hx
  obtain ⟨-, hl', hlt', -⟩ := h.level hy
  by_contra hgt
  have hsame := div_span_eq (by omega : l + 1 ≤ l') (hup (by omega))
  rw [← hdue, hsame] at hlt'
  exact lt_irrefl _ hlt'

/-- Two nodes of the upper levels due in the same tick share a list. -/
theorem Placed.level_unique
    (h : Placed T n) {l j l' j' : ℕ} (hx : x ∈ T.t l j) (hy : y ∈ T.t l' j')
    (hdue : x.due = y.due) : l' = l ∧ j' = j := by
  have hl : l' = l :=
    le_antisymm (h.level_le hx hy hdue) (h.level_le hy hx hdue.symm)
  subst hl
  obtain ⟨-, -, -, -, hj⟩ := h.level hx
  obtain ⟨-, -, -, -, hj'⟩ := h.level hy
  exact ⟨rfl, by rw [← hj, ← hj', hdue]⟩

/-- A node of the `near` wheel is not due with a node of an upper level. -/
theorem Placed.near_ne_level
    (h : Placed T n) {i l j : ℕ} (hx : x ∈ T.near i) (hy : y ∈ T.t l j) :
    x.due ≠ y.due := by
  intro hdue
  obtain ⟨-, hquot, -⟩ := h.near hx
  obtain ⟨-, -, hlt, -⟩ := h.level hy
  have hsame := div_span_eq (Nat.zero_le l) hquot
  rw [← hdue, hsame] at hlt
  exact lt_irrefl _ hlt

end Sharing

/-- Advancing the clock keeps the order: no node outside the moved list is due
with one of its nodes. -/
theorem timerShift_inOrder
    {T : Timer} {n : ℕ} (h : T.InOrder) (hplaced : Placed T n)
    (hlater : ∀ {i x}, x ∈ T.near i → n < x.due) :
    (timerShift T).InOrder := by
  have hct : (T.time + 1) % 2 ^ 32 = (n + 1) % 2 ^ 32 := by
    rw [hplaced.time]
    omega
  simp only [timerShift]
  split
  · rename_i l j htarget
    rw [hct] at htarget
    have hcleared := h.setLevel l j List.Pairwise.nil
    refine Timer.InOrder.foldl_addNode (n := n + 1) _
      ⟨hcleared.near, hcleared.level⟩
      (setLevel_nil_placed hplaced hlater hct htarget) ?_ (h.level l j) ?_
    · intro x hx
      obtain ⟨hlive, -⟩ := hplaced.level hx
      exact hlive.succ (hplaced.level_later hx)
    · intro y hy x hx hdue
      rcases hy with ⟨i, hy⟩ | ⟨l', j', hy⟩
      · exact absurd hdue (hplaced.near_ne_level hy hx)
      · obtain ⟨hy, hne⟩ := mem_setLevel_nil hy
        exact absurd (hplaced.level_unique hx hy hdue.symm) hne
  · exact ⟨h.near, h.level⟩

/-! ## Runs -/

/-- The nodes that `dispatch_list` still holds. -/
def Phase.current : Phase → List TimerNode
  | .idle => []
  | .dispatching _ current => current

/-- The wheel and the dispatched nodes are in order, and messages are pushed
in the order in which the nodes were passed to `dispatch_list`. -/
structure State.InOrder (s : State) : Prop where
  wheel : s.timer.InOrder
  serials : s.added.Pairwise fun x y => x.serial < y.serial
  passed : (s.passed.map Passing.node).Pairwise Before
  pushed : ∃ done, s.passed.map Passing.node = done ++ s.phase.current ∧
    s.pushed = done.map TimerNode.event

theorem inOrder_init : init.InOrder where
  wheel := ⟨fun _ => List.Pairwise.nil, fun _ _ => List.Pairwise.nil⟩
  serials := List.Pairwise.nil
  passed := List.Pairwise.nil
  pushed := ⟨[], rfl, rfl⟩

section Steps

variable {s : State}

theorem Invariant.mem_pending
    (h : Invariant s) {x : TimerNode} (hx : s.timer.Has x) :
    x ∈ pending s.timer := by
  rw [pending, Multiset.mem_add]
  rcases hx with ⟨i, hx⟩ | ⟨l, j, hx⟩
  · left
    obtain ⟨-, -, rfl⟩ := h.placed.near hx
    exact Census.mem_total
      (Finset.mem_range.mpr (Nat.mod_lt _ (by decide))) hx
  · right
    obtain ⟨-, hl, -, -, rfl⟩ := h.placed.level hx
    exact Census.mem_total (Finset.mem_range.mpr hl)
      (Census.mem_total
        (Finset.mem_range.mpr (Nat.mod_lt _ (by decide))) hx)

theorem Invariant.pending_added
    (h : Invariant s) {x : TimerNode} (hx : x ∈ pending s.timer) :
    x ∈ s.added := by
  have hall : x ∈ (s.added : Multiset TimerNode) := by
    rw [← h.conserved, Multiset.mem_add]
    exact Or.inl hx
  exact hall

/-- A new node carries a larger number than every node before it. -/
theorem Invariant.timerAdd_inOrder
    (h : Invariant s) (hord : s.InOrder) {event : TimerEvent} {time : ℕ}
    (hmax : time ≤ intMax) : (timerAdd s event time).InOrder := by
  refine ⟨?_, ?_, hord.passed, hord.pushed⟩
  · apply hord.wheel.addNode h.placed (h.newNode_live event hmax)
    intro y hy _
    exact (h.nodes y (h.pending_added (h.mem_pending hy))).1
  · simp only [timerAdd]
    rw [List.pairwise_append]
    refine ⟨hord.serials, List.pairwise_singleton _ _, ?_⟩
    intro y hy z hz
    rw [List.mem_singleton.mp hz]
    exact (h.nodes y hy).1

/-- After the shift, the list of the current slot is passed in its order, and
every node passed before was due earlier. -/
theorem Invariant.update_inOrder
    (h : Invariant s) (hord : s.InOrder) (hidle : s.phase = .idle) :
    (executeFirst s).InOrder := by
  have hwheel := timerShift_inOrder hord.wheel h.placed h.later
  obtain ⟨done, hdone, hpushed⟩ := hord.pushed
  rw [hidle] at hdone
  rw [h.executeFirst_eq, executeSecond]
  split
  · exact ⟨hwheel, hord.serials, hord.passed, done, hdone, hpushed⟩
  · have hmap : ((s.shift.take .second).passed.map Passing.node) =
        s.passed.map Passing.node ++ s.shift.timer.near s.shift.idx := by
      simp only [State.take, List.map_append, List.map_map]
      have hid : (Passing.node ∘
          fun x => ⟨x, s.shift.ticks, s.shift.timer.time⟩) = id := rfl
      rw [hid, List.map_id]
      rfl
    refine ⟨⟨?_, hwheel.level⟩, hord.serials, ?_, done, ?_, hpushed⟩
    · intro i
      by_cases hi : i = s.shift.idx
      · subst hi
        simp [State.take]
      · simp only [State.take, Function.update_of_ne hi]
        exact hwheel.near i
    · rw [hmap, List.pairwise_append]
      refine ⟨hord.passed, hwheel.near _, ?_⟩
      intro x hx y hy hdue
      obtain ⟨p, hp, rfl⟩ := List.mem_map.mp hx
      obtain ⟨htick, -, hle⟩ := h.exact_tick p hp
      have hnow := (h.shift_accounted.near_idx_iff hy).mp rfl
      change y.due = s.ticks + 1 at hnow
      omega
    · rw [hmap, hdone, Phase.current, List.append_nil]
      rfl

/-- Pushing a message moves it from the nodes that are held. -/
theorem Invariant.deliver_inOrder
    (h : Invariant s) (hord : s.InOrder) {x : TimerNode}
    {rest : List TimerNode} {s' : State}
    (hphase : s.phase = .dispatching .second (x :: rest))
    (hs : step s .deliver = .next s') : s'.InOrder := by
  obtain ⟨done, hdone, hpushed⟩ := hord.pushed
  have hnext : s.passed.map Passing.node = (done ++ [x]) ++ rest := by
    rw [hdone, hphase, Phase.current, List.append_assoc]
    rfl
  have hevents : s.pushed ++ [x.event] =
      (done ++ [x]).map TimerNode.event := by
    rw [hpushed, List.map_append, List.map_singleton]
  cases rest with
  | nil =>
      have hend : timerExecute { s with pushed := s.pushed ++ [x.event] }
          .second =
            { s with pushed := s.pushed ++ [x.event], phase := .idle } :=
        if_pos h.near_idx_nil
      simp only [step, hphase] at hs
      cases hs
      rw [← hphase, hend]
      exact ⟨hord.wheel, hord.serials, hord.passed, done ++ [x], hnext,
        hevents⟩
  | cons y rest =>
      simp only [step, hphase] at hs
      cases hs
      exact ⟨hord.wheel, hord.serials, hord.passed, done ++ [x], hnext,
        hevents⟩

end Steps

theorem step_inOrder
    {s s' : State} {l : Label} (h : Invariant s) (hord : s.InOrder)
    (hok : validDelay s l) (hs : step s l = .next s') : s'.InOrder := by
  cases l with
  | add event time =>
      cases hs
      exact h.timerAdd_inOrder hord hok.2
  | update =>
      cases hphase : s.phase with
      | idle =>
          simp only [step, hphase] at hs
          cases hs
          exact h.update_inOrder hord hphase
      | dispatching round current =>
          simp only [step, hphase] at hs
          cases hs
  | deliver =>
      cases hphase : s.phase with
      | idle =>
          simp only [step, hphase] at hs
          cases hs
      | dispatching round current =>
          obtain ⟨rfl, hne⟩ := h.dispatching hphase
          obtain ⟨x, rest, rfl⟩ := List.exists_cons_of_ne_nil hne
          exact h.deliver_inOrder hord hphase hs

theorem reaches_inOrder
    {s : State} (hrun : Reaches step validDelay init s) :
    Invariant s ∧ s.InOrder :=
  hrun.invariant (fun s => Invariant s ∧ s.InOrder)
    ⟨invariant_init, inOrder_init⟩
    fun _ _ _ h hok hs =>
      ⟨step_invariant h.1 hok hs, step_inOrder h.1 h.2 hok hs⟩

/-! ## The order of dispatch -/

theorem Invariant.pending_live
    {s : State} (h : Invariant s) {x : TimerNode}
    (hx : x ∈ pending s.timer) : Live s.ticks x := by
  rcases exists_mem_of_mem_pending hx with ⟨i, hx⟩ | ⟨l, j, hx⟩
  · exact (h.placed.near hx).1
  · exact (h.placed.level hx).1

/-- Deadlines pending at the same time are less than a period apart. -/
theorem due_eq_of_expire_eq
    {n : ℕ} {x y : TimerNode} (hx : Live n x) (hy : Live n y)
    (hexpire : x.expire = y.expire) : x.due = y.due := by
  have hmod := hx.expire.symm.trans (hexpire.trans hy.expire)
  have hxnow := hx.from_now
  have hxwithin := hx.within
  have hynow := hy.from_now
  have hywithin := hy.within
  omega

theorem executeSecond_added (s : State) :
    (executeSecond s).added = s.added := by
  unfold executeSecond
  split
  · rfl
  · rfl

theorem executeFirst_added (s : State) :
    (executeFirst s).added = s.added := by
  unfold executeFirst
  split
  · exact executeSecond_added s.shift
  · rfl

theorem timerExecute_added (s : State) (round : Round) :
    (timerExecute s round).added = s.added := by
  cases round with
  | first => exact executeFirst_added s
  | second => exact executeSecond_added s

theorem added_mono
    {r s : State} (hrun : Reaches step validDelay r s) :
    r.added.Sublist s.added := by
  refine hrun.invariant (fun s => r.added.Sublist s.added)
    (List.Sublist.refl _) ?_
  intro s l s' h _ hs
  cases l with
  | add event time =>
      cases hs
      exact h.trans (List.sublist_append_left _ _)
  | update =>
      simp only [step] at hs
      split at hs
      · cases hs
        rw [executeFirst_added]
        exact h
      · cases hs
  | deliver =>
      simp only [step] at hs
      split at hs
      · split at hs
        · cases hs
          rw [timerExecute_added]
          exact h
        · cases hs
          exact h
      · cases hs

/-- Of two nodes with equal deadlines that were pending at the same time, the
one that was added first is dispatched first in every continuation of the
run, and the messages are pushed in the order of dispatch. -/
theorem equal_deadlines_in_order
    {r s : State} (hpast : Reaches step validDelay init r)
    (hrun : Reaches step validDelay r s) {x y : TimerNode}
    (hx : x ∈ pending r.timer) (hy : y ∈ pending r.timer)
    (hfirst : [x, y].Sublist r.added) (hexpire : x.expire = y.expire) :
    (∀ j : ℕ, (s.passed.map Passing.node)[j]? = some y →
      ∃ i < j, (s.passed.map Passing.node)[i]? = some x) ∧
      s.pushed <+: (s.passed.map Passing.node).map TimerNode.event := by
  obtain ⟨hr, hrord⟩ := reaches_inOrder hpast
  obtain ⟨h, hord⟩ := reaches_inOrder (hpast.trans hrun)
  have hdue : x.due = y.due :=
    due_eq_of_expire_eq (hr.pending_live hx) (hr.pending_live hy) hexpire
  have hserial : x.serial < y.serial := by
    have hpair := hrord.serials.sublist hfirst
    exact (List.pairwise_cons.mp hpair).1 y List.mem_cons_self
  obtain ⟨done, hdone, hpushed⟩ := hord.pushed
  have hprefix :
      s.pushed <+: (s.passed.map Passing.node).map TimerNode.event := by
    rw [hdone, List.map_append, hpushed]
    exact List.prefix_append _ _
  refine ⟨?_, hprefix⟩
  intro j hj
  have hxadded : x ∈ s.added :=
    (added_mono hrun).subset (hr.pending_added hx)
  have hyadded : y ∈ s.added :=
    (added_mono hrun).subset (hr.pending_added hy)
  have hycount : 0 < passCount s y :=
    List.count_pos_iff.mpr (List.mem_of_getElem? hj)
  have hreached : y.due ≤ s.ticks := by
    rw [h.passCount_eq hyadded] at hycount
    by_contra hlater
    rw [if_neg hlater] at hycount
    exact lt_irrefl _ hycount
  have hxcount : 0 < passCount s x := by
    rw [h.passCount_eq hxadded, if_pos (hdue ▸ hreached)]
    exact Nat.one_pos
  obtain ⟨i, hi⟩ := List.getElem?_of_mem (List.count_pos_iff.mp hxcount)
  refine ⟨i, ?_, hi⟩
  -- were `y` passed first, it would have the smaller number
  by_contra hij
  rcases Nat.lt_or_eq_of_le (Nat.le_of_not_lt hij) with hlt | rfl
  · obtain ⟨hjlt, hjeq⟩ := List.getElem?_eq_some_iff.mp hj
    obtain ⟨hilt, hieq⟩ := List.getElem?_eq_some_iff.mp hi
    have hpair := List.pairwise_iff_getElem.mp hord.passed j i hjlt hilt hlt
    rw [hieq, hjeq] at hpair
    exact absurd (hpair hdue.symm) (Nat.lt_asymm hserial)
  · rw [hi] at hj
    cases hj
    exact lt_irrefl _ hserial

/-- Two delays that end in the second tick, requested in different ticks. -/
theorem equal_deadlines_in_order_second_tick :
    ∃ s x y, Reaches step validDelay init s ∧ x.delay = 2 ∧ y.delay = 1 ∧
      (s.passed.map Passing.node)[1]? = some y ∧
      ∃ i < 1, (s.passed.map Passing.node)[i]? = some x := by
  let event : TimerEvent := ⟨16777224, 7⟩
  let s₁ := executeFirst (timerAdd init event 2)
  let r := timerAdd s₁ event 1
  have hpast : Reaches step validDelay init r :=
    .tail (.add event 1) (.tail .update (.tail (.add event 2) .refl
      ⟨by decide, by decide⟩ rfl) trivial rfl) ⟨by decide, by decide⟩ rfl
  have hidle : r.phase = .idle := by decide
  have hrun : Reaches step validDelay r (executeFirst r) :=
    .tail .update .refl trivial (by simp only [step, hidle])
  have hr : Invariant r := reaches_invariant hpast
  have hx : newNode init event 2 ∈ pending r.timer :=
    hr.mem_pending (.inl ⟨2, by decide⟩)
  have hy : newNode s₁ event 1 ∈ pending r.timer :=
    hr.mem_pending (.inl ⟨2, by decide⟩)
  obtain ⟨horder, -⟩ := equal_deadlines_in_order hpast hrun hx hy
    (by decide) (by decide)
  have hsecond : ((executeFirst r).passed.map Passing.node)[1]? =
      some (newNode s₁ event 1) := by decide
  exact ⟨executeFirst r, newNode init event 2, newNode s₁ event 1,
    hpast.trans hrun, rfl, rfl, hsecond, horder 1 hsecond⟩

end SkynetServer.TimerWheel
