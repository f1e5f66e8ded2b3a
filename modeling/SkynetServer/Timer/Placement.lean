import Mathlib.Tactic.IntervalCases
import SkynetServer.Support.Masks
import SkynetServer.Timer.Wheel

/-!
# Placement of the nodes in the timer wheel

The clock and the deadlines are 32-bit numbers which wrap around, but a
pending deadline is always less than half a period ahead of the clock.  The
placement invariant is therefore stated with the number of ticks and the tick
in which a node is due, neither of which wraps: a node waits on the level of
the highest bits in which the two differ.  Filing a node establishes it,
and `timer_shift` restores it after the clock has advanced.
-/

namespace SkynetServer.TimerWheel

/-- Number of ticks covered by one list of level `l`; level `0` covers as
much as the whole `near` wheel. -/
def span (l : ℕ) : ℕ := 2 ^ (timeNearShift + l * timeLevelShift)

@[simp] theorem span_zero : span 0 = 2 ^ 8 := rfl

@[simp] theorem span_one : span 1 = 2 ^ 14 := rfl

@[simp] theorem span_two : span 2 = 2 ^ 20 := rfl

@[simp] theorem span_three : span 3 = 2 ^ 26 := rfl

/-- After `n` ticks the node is still to be dispatched, at most `INT_MAX`
ticks ahead, and its stored deadline is its due tick reduced to 32 bits. -/
structure Live (n : ℕ) (x : TimerNode) : Prop where
  expire : x.expire = x.due % 2 ^ 32
  from_now : n ≤ x.due
  within : x.due < n + 2 ^ 31

/-- The placement invariant of a wheel that has made `n` ticks. -/
structure Placed (T : Timer) (n : ℕ) : Prop where
  time : T.time = n % 2 ^ 32
  near : ∀ {i x}, x ∈ T.near i →
    Live n x ∧ x.due / span 0 = n / span 0 ∧ x.due % span 0 = i
  level : ∀ {l j x}, x ∈ T.t l j →
    Live n x ∧ l < 4 ∧ n / span l < x.due / span l ∧
      (l < 3 → x.due / span (l + 1) = n / span (l + 1)) ∧
      x.due / span l % 64 = j

section Filing

variable {T : Timer} {n : ℕ} {x : TimerNode}

/-- The mask tests of `add_node` compare the due tick with the clock. -/
theorem maskTest_iff
    (htime : T.time = n % 2 ^ 32) (hx : Live n x) {k : ℕ} (hk : k ≤ 31) :
    (x.expire ||| (2 ^ k - 1) = T.time ||| (2 ^ k - 1)) ↔
      x.due / 2 ^ k = n / 2 ^ k := by
  rw [Masks.or_mask_eq_iff, htime, hx.expire]
  exact Masks.mod_div_eq_iff_of_near hx.from_now hx.within hk

/-- The level chosen by `add_node` for a node outside the `near` wheel. -/
theorem levelLoop_spec
    (htime : T.time = n % 2 ^ 32) (hx : Live n x)
    (hnear : x.due / span 0 ≠ n / span 0) :
    let l := levelLoop x.expire T.time 3 0 (timeNear <<< timeLevelShift)
    l < 4 ∧ n / span l < x.due / span l ∧
      (l < 3 → x.due / span (l + 1) = n / span (l + 1)) := by
  have hlater := hx.from_now
  have h14 := maskTest_iff htime hx (k := 14) (by omega)
  have h20 := maskTest_iff htime hx (k := 20) (by omega)
  have h26 := maskTest_iff htime hx (k := 26) (by omega)
  rw [span_zero] at hnear
  have hunfold :
      levelLoop x.expire T.time 3 0 (timeNear <<< timeLevelShift) =
        if x.due / 2 ^ 14 = n / 2 ^ 14 then 0
        else if x.due / 2 ^ 20 = n / 2 ^ 20 then 1
        else if x.due / 2 ^ 26 = n / 2 ^ 26 then 2
        else 3 := by
    simp only [levelLoop, ← h14, ← h20, ← h26]
    rfl
  rw [hunfold]
  split_ifs with c14 c20 c26
  · simp
    omega
  · simp
    omega
  · simp
    omega
  · simp
    omega

/-- The list index computed from the stored deadline. -/
theorem levelIdx_eq (hx : Live n x) {l : ℕ} (hl : l < 4) :
    (x.expire >>> (timeNearShift + l * timeLevelShift)) &&& timeLevelMask =
      x.due / span l % 64 := by
  have hmask : timeLevelMask = 2 ^ 6 - 1 := rfl
  rw [hmask, Nat.and_two_pow_sub_one_eq_mod, Nat.shiftRight_eq_div_pow,
    hx.expire]
  change x.due % 2 ^ 32 / span l % 2 ^ 6 = x.due / span l % 64
  interval_cases l <;> simp <;> omega

theorem nearIdx_eq (hx : Live n x) :
    x.expire &&& timeNearMask = x.due % span 0 := by
  have hmask : timeNearMask = 2 ^ 8 - 1 := rfl
  rw [hmask, Nat.and_two_pow_sub_one_eq_mod, hx.expire]
  simp

/-- Where `add_node` files a pending node. -/
theorem addNode_cases (h : Placed T n) (hx : Live n x) :
    (x.due / span 0 = n / span 0 ∧
      addNode T x = T.linkNear (x.due % span 0) x) ∨
    ∃ l, l < 4 ∧ n / span l < x.due / span l ∧
      (l < 3 → x.due / span (l + 1) = n / span (l + 1)) ∧
      addNode T x = T.linkLevel l (x.due / span l % 64) x := by
  have htest := maskTest_iff h.time hx (k := 8) (by omega)
  change (x.expire ||| timeNearMask = T.time ||| timeNearMask) ↔
    x.due / span 0 = n / span 0 at htest
  by_cases hnear : x.due / span 0 = n / span 0
  · left
    refine ⟨hnear, ?_⟩
    simp only [addNode, htest, if_pos hnear, nearIdx_eq hx]
  · right
    obtain ⟨hl, hlt, hup⟩ := levelLoop_spec h.time hx hnear
    refine ⟨_, hl, hlt, hup, ?_⟩
    simp only [addNode, htest, if_neg hnear, levelIdx_eq hx hl]

theorem mem_linkNear {i j : ℕ} {y : TimerNode} :
    y ∈ (T.linkNear i x).near j ↔ y ∈ T.near j ∨ (j = i ∧ y = x) := by
  by_cases hji : j = i
  · subst hji
    simp [Timer.linkNear]
  · simp [Timer.linkNear, hji]

theorem mem_linkLevel {i j l k : ℕ} {y : TimerNode} :
    y ∈ (T.linkLevel i j x).t l k ↔
      y ∈ T.t l k ∨ (l = i ∧ k = j ∧ y = x) := by
  by_cases hli : l = i
  · subst hli
    by_cases hkj : k = j
    · subst hkj
      simp [Timer.linkLevel, Timer.setLevel]
    · simp [Timer.linkLevel, Timer.setLevel, hkj]
  · simp [Timer.linkLevel, Timer.setLevel, hli]

/-- Filing a pending node keeps the placement invariant. -/
theorem addNode_placed (h : Placed T n) (hx : Live n x) :
    Placed (addNode T x) n := by
  rcases addNode_cases h hx with ⟨hnear, heq⟩ | ⟨l, hl, hlt, hup, heq⟩
  · rw [heq]
    refine ⟨h.time, ?_, fun hy => h.level hy⟩
    intro i y hy
    rcases mem_linkNear.mp hy with hy | ⟨rfl, rfl⟩
    · exact h.near hy
    · exact ⟨hx, hnear, rfl⟩
  · rw [heq]
    refine ⟨h.time, fun hy => h.near hy, ?_⟩
    intro l' j y hy
    rcases mem_linkLevel.mp hy with hy | ⟨rfl, rfl, rfl⟩
    · exact h.level hy
    · exact ⟨hx, hl, hlt, hup, rfl⟩

theorem foldl_addNode_placed
    (nodes : List TimerNode) (h : Placed T n) (hnodes : ∀ x ∈ nodes, Live n x) :
    Placed (nodes.foldl addNode T) n := by
  induction nodes generalizing T with
  | nil => exact h
  | cons x rest ih =>
      apply ih (addNode_placed h (hnodes x (by simp)))
      intro y hy
      exact hnodes y (by simp [hy])

end Filing

/-! ## Advancing the clock -/

/-- One iteration of the loop of `timer_shift`. -/
theorem shiftLoop_succ (ct rounds i k : ℕ) :
    shiftLoop ct (rounds + 1) i (2 ^ k) (ct / 2 ^ k) =
      if ct % 2 ^ k ≠ 0 then none
      else if ct / 2 ^ k % 64 ≠ 0 then some (i, ct / 2 ^ k % 64)
      else shiftLoop ct rounds (i + 1) (2 ^ (k + 6)) (ct / 2 ^ (k + 6)) := by
  have hidx : ct / 2 ^ k &&& timeLevelMask = ct / 2 ^ k % 64 :=
    Nat.and_two_pow_sub_one_eq_mod (ct / 2 ^ k) 6
  have hshift : (ct / 2 ^ k) >>> timeLevelShift = ct / 2 ^ (k + 6) := by
    rw [Nat.shiftRight_eq_div_pow, Nat.div_div_eq_div_mul, ← Nat.pow_add]
    rfl
  have hmask : 2 ^ k <<< timeLevelShift = 2 ^ (k + 6) := by
    rw [Nat.shiftLeft_eq, ← Nat.pow_add]
    rfl
  rw [shiftLoop, Nat.and_two_pow_sub_one_eq_mod, hidx, hshift, hmask]
  by_cases hzero : ct % 2 ^ k = 0
  · rw [if_pos hzero, if_neg (not_not_intro hzero)]
  · rw [if_neg hzero, if_pos hzero]

/-- The loop of `timer_shift` stops before its mask could overflow, and finds
the first level whose index in the clock is not zero. -/
theorem shiftTarget_eq {ct : ℕ} (hct : ct < 2 ^ 32) :
    shiftTarget ct =
      if ct = 0 then some (3, 0)
      else if ct % 2 ^ 8 ≠ 0 then none
      else if ct / 2 ^ 8 % 64 ≠ 0 then some (0, ct / 2 ^ 8 % 64)
      else if ct / 2 ^ 14 % 64 ≠ 0 then some (1, ct / 2 ^ 14 % 64)
      else if ct / 2 ^ 20 % 64 ≠ 0 then some (2, ct / 2 ^ 20 % 64)
      else some (3, ct / 2 ^ 26 % 64) := by
  have hfirst : ct >>> timeNearShift = ct / 2 ^ 8 :=
    Nat.shiftRight_eq_div_pow ct 8
  have hnear : timeNear = 2 ^ 8 := rfl
  rw [shiftTarget, hfirst, hnear]
  refine ite_congr rfl (fun _ => rfl) fun hzero => ?_
  rw [shiftLoop_succ]
  refine ite_congr rfl (fun _ => rfl) fun h8 => ?_
  refine ite_congr rfl (fun _ => rfl) fun i8 => ?_
  have h14 : ¬ ct % 2 ^ (8 + 6) ≠ 0 := by omega
  rw [shiftLoop_succ, if_neg h14]
  refine ite_congr rfl (fun _ => rfl) fun i14 => ?_
  have h20 : ¬ ct % 2 ^ (8 + 6 + 6) ≠ 0 := by omega
  rw [shiftLoop_succ, if_neg h20]
  refine ite_congr rfl (fun _ => rfl) fun i20 => ?_
  have h26 : ¬ ct % 2 ^ (8 + 6 + 6 + 6) ≠ 0 := by omega
  have i26 : ct / 2 ^ (8 + 6 + 6 + 6) % 64 ≠ 0 := by omega
  rw [shiftLoop_succ, if_neg h26, if_pos i26]

/-- The clock has an index that is not zero on a lower level. -/
theorem shiftTarget_of_level
    {ct l : ℕ} (hct : ct < 2 ^ 32) (hl : l < 3)
    (hzero : ct % span l = 0) (hidx : ct / span l % 64 ≠ 0) :
    shiftTarget ct = some (l, ct / span l % 64) := by
  rw [shiftTarget_eq hct]
  have hne : ct ≠ 0 := by
    rintro rfl
    rw [Nat.zero_div] at hidx
    exact hidx rfl
  rw [if_neg hne]
  have hnear : ¬ ct % 2 ^ 8 ≠ 0 := by
    have hdvd : 2 ^ 8 ∣ span l :=
      Nat.pow_dvd_pow 2 (Nat.le_add_right _ _)
    have hspan := Nat.dvd_of_mod_eq_zero hzero
    exact not_not_intro (Nat.mod_eq_zero_of_dvd (hdvd.trans hspan))
  rw [if_neg hnear]
  interval_cases l
  · rw [span_zero] at hidx ⊢
    rw [if_pos hidx]
  · rw [span_one] at hzero hidx ⊢
    rw [if_neg (by omega), if_pos hidx]
  · rw [span_two] at hzero hidx ⊢
    rw [if_neg (by omega), if_neg (by omega), if_pos hidx]

/-- The clock is zero up to the last level. -/
theorem shiftTarget_of_last
    {ct : ℕ} (hct : ct < 2 ^ 32) (hzero : ct % span 3 = 0) :
    shiftTarget ct = some (3, ct / span 3 % 64) := by
  rw [span_three] at hzero ⊢
  rw [shiftTarget_eq hct]
  by_cases hne : ct = 0
  · rw [if_pos hne, hne]
    rfl
  · rw [if_neg hne, if_neg (by omega), if_neg (by omega), if_neg (by omega),
      if_neg (by omega)]

/-- The next number has a new quotient only if it is a multiple. -/
theorem succ_mod_eq_zero {n k : ℕ} (h : n / k < (n + 1) / k) :
    (n + 1) % k = 0 ∧ (n + 1) / k = n / k + 1 := by
  have hdvd : k ∣ n + 1 := by
    by_contra hnot
    exact Nat.ne_of_gt h (Nat.succ_div_of_not_dvd hnot)
  exact ⟨Nat.mod_eq_zero_of_dvd hdvd, Nat.succ_div_of_dvd hdvd⟩

/-- A node which the advancing clock reaches waits in the list that
`timer_shift` moves. -/
theorem shiftTarget_of_reached
    {T : Timer} {n l j : ℕ} {x : TimerNode} (h : Placed T n) (hx : x ∈ T.t l j)
    (hreach : ¬ (n + 1) / span l < x.due / span l) :
    shiftTarget ((n + 1) % 2 ^ 32) = some (l, j) := by
  obtain ⟨hlive, hl, hlt, hup, rfl⟩ := h.level hx
  have hnew : n / span l < (n + 1) / span l :=
    Nat.lt_of_lt_of_le hlt (Nat.le_of_not_lt hreach)
  obtain ⟨hmod, hquot⟩ := succ_mod_eq_zero hnew
  have hdue : x.due / span l = (n + 1) / span l := by
    rw [hquot]
    rw [hquot] at hreach
    omega
  have hct : (n + 1) % 2 ^ 32 < 2 ^ 32 := Nat.mod_lt _ (by norm_num)
  have hctmod : (n + 1) % 2 ^ 32 % span l = 0 := by
    have hdvd : span l ∣ 2 ^ 32 := by
      refine Nat.pow_dvd_pow 2 ?_
      have hshift : timeNearShift + l * timeLevelShift = 8 + l * 6 := rfl
      omega
    rw [Nat.mod_mod_of_dvd _ hdvd, hmod]
  have hctidx : (n + 1) % 2 ^ 32 / span l % 64 = (n + 1) / span l % 64 := by
    interval_cases l
    · rw [span_zero]
      omega
    · rw [span_one]
      omega
    · rw [span_two]
      omega
    · rw [span_three]
      omega
  rw [hdue, ← hctidx]
  rcases Nat.lt_or_eq_of_le (Nat.le_of_lt_succ hl) with hlow | rfl
  · refine shiftTarget_of_level hct hlow hctmod fun hzero => ?_
    -- a multiple of the next span would be beyond the node's due tick
    have hspan : span (l + 1) = span l * 64 := by
      rw [span, span, Nat.succ_mul, ← Nat.add_assoc, Nat.pow_add]
      rfl
    have hsame := hup hlow
    rw [hspan, ← Nat.div_div_eq_div_mul, ← Nat.div_div_eq_div_mul, hdue,
      hquot] at hsame
    rw [hctidx, hquot] at hzero
    omega
  · exact shiftTarget_of_last hct hctmod

section Advancing

variable {T : Timer} {n : ℕ} {x : TimerNode}

theorem Live.succ (hx : Live n x) (hlater : n < x.due) : Live (n + 1) x :=
  ⟨hx.expire, hlater, by have := hx.within; omega⟩

/-- Equal quotients stay equal for every number in between. -/
theorem div_succ_eq {a k : ℕ} (h : a / k = n / k) (hlater : n < a) :
    a / k = (n + 1) / k := by
  have hlow : n / k ≤ (n + 1) / k := Nat.div_le_div_right (by omega)
  have hhigh : (n + 1) / k ≤ a / k := Nat.div_le_div_right hlater
  omega

/-- A `near` node that is due later stays where it is. -/
theorem Placed.near_succ
    (h : Placed T n) {i : ℕ} (hx : x ∈ T.near i) (hlater : n < x.due) :
    Live (n + 1) x ∧ x.due / span 0 = (n + 1) / span 0 ∧
      x.due % span 0 = i := by
  obtain ⟨hlive, hquot, hidx⟩ := h.near hx
  exact ⟨hlive.succ hlater, div_succ_eq hquot hlater, hidx⟩

theorem Placed.level_later
    (h : Placed T n) {l j : ℕ} (hx : x ∈ T.t l j) : n < x.due := by
  obtain ⟨-, -, hlt, -⟩ := h.level hx
  exact lt_of_not_ge fun hge =>
    absurd hlt (not_lt_of_ge (Nat.div_le_div_right hge))

/-- A node of a level that the clock does not reach stays where it is. -/
theorem Placed.level_succ
    (h : Placed T n) {l j : ℕ} (hx : x ∈ T.t l j)
    (hreach : (n + 1) / span l < x.due / span l) :
    Live (n + 1) x ∧ l < 4 ∧ (n + 1) / span l < x.due / span l ∧
      (l < 3 → x.due / span (l + 1) = (n + 1) / span (l + 1)) ∧
      x.due / span l % 64 = j := by
  have hlater := h.level_later hx
  obtain ⟨hlive, hl, -, hup, hj⟩ := h.level hx
  exact ⟨hlive.succ hlater, hl, hreach,
    fun hl3 => div_succ_eq (hup hl3) hlater, hj⟩

theorem mem_setLevel_nil {l j l' j' : ℕ}
    (hx : x ∈ (T.setLevel l j []).t l' j') :
    x ∈ T.t l' j' ∧ ¬ (l' = l ∧ j' = j) := by
  by_cases hl : l' = l
  · subst hl
    by_cases hj : j' = j
    · subst hj
      simp [Timer.setLevel] at hx
    · simpa [Timer.setLevel, hj] using hx
  · simpa [Timer.setLevel, hl] using hx

/-- After the clock has advanced, the wheel without the list that is to be
moved is placed again. -/
theorem setLevel_nil_placed
    (h : Placed T n) (hlater : ∀ {i x}, x ∈ T.near i → n < x.due) {ct l j : ℕ}
    (hct : ct = (n + 1) % 2 ^ 32)
    (htarget : shiftTarget ((n + 1) % 2 ^ 32) = some (l, j)) :
    Placed (Timer.setLevel { T with time := ct } l j []) (n + 1) := by
  refine ⟨hct, fun hx => h.near_succ hx (hlater hx), ?_⟩
  intro l' j' x hx
  obtain ⟨hx, hne⟩ := mem_setLevel_nil hx
  apply h.level_succ hx
  by_contra hreach
  have hother := shiftTarget_of_reached h hx hreach
  rw [htarget] at hother
  cases hother
  exact hne ⟨rfl, rfl⟩

/-- One tick: when no `near` node is due any more, `timer_shift` moves
every node that the clock reaches and keeps the placement invariant. -/
theorem timerShift_placed
    (h : Placed T n) (hlater : ∀ {i x}, x ∈ T.near i → n < x.due) :
    Placed (timerShift T) (n + 1) := by
  have hct : (T.time + 1) % 2 ^ 32 = (n + 1) % 2 ^ 32 := by
    rw [h.time]
    omega
  simp only [timerShift, hct]
  split
  · rename_i l j htarget
    apply foldl_addNode_placed
    · exact setLevel_nil_placed h hlater rfl htarget
    · intro x hx
      obtain ⟨hlive, -⟩ := h.level hx
      exact hlive.succ (h.level_later hx)
  · rename_i htarget
    refine ⟨rfl, fun hx => h.near_succ hx (hlater hx), ?_⟩
    intro l j x hx
    apply h.level_succ hx
    by_contra hreach
    rw [shiftTarget_of_reached h hx hreach] at htarget
    cases htarget

end Advancing

end SkynetServer.TimerWheel
