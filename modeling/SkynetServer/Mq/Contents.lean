import Mathlib.Algebra.Order.Ring.Nat
import Mathlib.Data.Nat.Find
import SkynetServer.Mq.Ring
import SkynetServer.Support.RingBuffer

/-!
# The messages in a queue

A message queue is a ring with a slot for every position of its array.  The
messages in it are those of a list: a message is appended at its end, and
`skynet_mq_pop` takes the first one.  The capacity is an `int`, so this ends
with the push that makes `2 ^ 30` messages, which doubles it to a number that
is not positive.

The threshold of the overload is `MQ_OVERLOAD`, doubled just enough times for
the numbers of messages that were left in the queue.
-/

namespace SkynetServer.Mq

/-! ## The threshold -/

theorem exists_le_threshold (n : ℕ) : ∃ k, n ≤ mqOverload * 2 ^ k := by
  refine ⟨n, ?_⟩
  calc n ≤ 2 ^ n := Nat.lt_two_pow_self.le
    _ ≤ mqOverload * 2 ^ n := Nat.le_mul_of_pos_left _ (by decide)

/-- `MQ_OVERLOAD`, doubled just enough times for `n` messages. -/
def thresholdFor (n : ℕ) : ℕ :=
  mqOverload * 2 ^ Nat.find (exists_le_threshold n)

theorem le_thresholdFor (n : ℕ) : n ≤ thresholdFor n :=
  Nat.find_spec (exists_le_threshold n)

theorem thresholdFor_le {n k : ℕ} (h : n ≤ mqOverload * 2 ^ k) :
    thresholdFor n ≤ mqOverload * 2 ^ k := by
  have hle : Nat.find (exists_le_threshold n) ≤ k := Nat.find_le h
  exact Nat.mul_le_mul_left _ (Nat.pow_le_pow_right (by decide) hle)

theorem thresholdFor_mono {n m : ℕ} (h : n ≤ m) :
    thresholdFor n ≤ thresholdFor m :=
  thresholdFor_le (h.trans (le_thresholdFor m))

theorem thresholdFor_zero : thresholdFor 0 = mqOverload := by
  have hle : thresholdFor 0 ≤ mqOverload * 2 ^ 0 := thresholdFor_le (by decide)
  have hge : mqOverload ≤ thresholdFor 0 :=
    Nat.le_mul_of_pos_right _ (Nat.two_pow_pos _)
  omega

/-- A threshold below the number is doubled once more. -/
theorem le_thresholdFor_of_lt {n k : ℕ} (h : mqOverload * 2 ^ k < n) :
    mqOverload * 2 ^ (k + 1) ≤ thresholdFor n := by
  have hlt : mqOverload * 2 ^ k <
      mqOverload * 2 ^ Nat.find (exists_le_threshold n) :=
    h.trans_le (le_thresholdFor n)
  have hpow := Nat.lt_of_mul_lt_mul_left hlt
  have hfind := (Nat.pow_lt_pow_iff_right (by decide)).mp hpow
  exact Nat.mul_le_mul_left _ (Nat.pow_le_pow_right (by decide) hfind)

theorem int_of_bounds {n : ℤ} (h : -0x80000000 ≤ n) (h' : n < 0x80000000) :
    int n = n := by
  rw [int, Int.bmod_eq_of_le]
  · omega
  · omega

namespace Queue

/-- The loop of `skynet_mq_pop` doubles the threshold just enough times, and
sets `overload` if it does.  The doubled threshold is a number of 31 bits. -/
theorem raiseThreshold_spec
    {length peak k : ℕ} {q : Queue} (hlength : length < 2 ^ 30)
    (hk : q.overloadThreshold = (mqOverload * 2 ^ k : ℕ))
    (hpeak : peak ≤ mqOverload * 2 ^ k)
    (hle : mqOverload * 2 ^ k ≤ thresholdFor (max peak length))
    {n : ℕ} (hn : length ≤ mqOverload * 2 ^ k * 2 ^ n) :
    raiseThreshold length (n + 1) q = some { q with
      overload := if length > mqOverload * 2 ^ k then (length : ℤ)
        else q.overload
      overloadThreshold := thresholdFor (max peak length) } := by
  induction n generalizing q k with
  | zero =>
      have hdone : length ≤ mqOverload * 2 ^ k := by simpa using hn
      have heq := le_antisymm (thresholdFor_le (max_le hpeak hdone)) hle
      rw [raiseThreshold, if_neg (by omega), if_neg (by omega), heq, ← hk]
  | succ n ih =>
      rw [raiseThreshold]
      by_cases hgt : length > mqOverload * 2 ^ k
      · have htwice : int (q.overloadThreshold * 2) =
            (mqOverload * 2 ^ (k + 1) : ℕ) := by
          rw [int_of_bounds (by omega) (by omega), hk, Nat.pow_succ]
          push_cast
          rw [mul_assoc]
        rw [if_pos (by omega), if_pos hgt,
          ih htwice (hpeak.trans (Nat.mul_le_mul_left _
            (Nat.pow_le_pow_right (by decide) (Nat.le_succ k))))
          (le_thresholdFor_of_lt (lt_max_of_lt_right hgt))
          (by rwa [Nat.mul_assoc, ← Nat.pow_add, Nat.succ_add_eq_add_succ,
            Nat.pow_add, ← Nat.mul_assoc])]
        split_ifs <;> rfl
      · have heq := le_antisymm
          (thresholdFor_le (max_le hpeak (not_lt.mp hgt))) hle
        rw [if_neg (by omega), if_neg hgt, heq, ← hk]

/-! ## The ring -/

/-- The ring in the array of the queue. -/
def ring (q : Queue) : RingBuffer Message where
  cap := q.cap.toNat
  head := q.head.toNat
  tail := q.tail.toNat
  slot i := some (q.queue i)

/-- The queue holds the messages of the list, in its order.  The capacity has
been doubled at most 24 times, and the threshold for some number of
messages. -/
structure Contents (q : Queue) (l : List Message) : Prop where
  cap : ∃ k ≤ 24, q.cap = (defaultQueueSize * 2 ^ k : ℕ)
  head : 0 ≤ q.head
  tail : 0 ≤ q.tail
  threshold : ∃ peak, q.overloadThreshold = thresholdFor peak
  holds : q.ring.Holds l

variable {q : Queue} {l : List Message}

/-- The positions are those of the array, which has at most `2 ^ 30`. -/
theorem Contents.bounds (h : q.Contents l) :
    q.head < q.cap ∧ q.tail < q.cap ∧ q.cap ≤ 2 ^ 30 ∧ l.length < q.cap := by
  have hhead : q.head.toNat < q.cap.toNat := h.holds.head_lt
  have htail : q.tail.toNat < q.cap.toNat := h.holds.tail_lt
  have hlength : l.length < q.cap.toNat := h.holds.length_lt
  obtain ⟨k, hk, hcap⟩ := h.cap
  have hle : defaultQueueSize * 2 ^ k ≤ defaultQueueSize * 2 ^ 24 :=
    Nat.mul_le_mul_left _ (Nat.pow_le_pow_right (by decide) hk)
  have hmax : defaultQueueSize * 2 ^ 24 = 2 ^ 30 := by decide
  omega

theorem Contents.head_eq_tail_iff (h : q.Contents l) :
    q.head = q.tail ↔ l = [] := by
  rw [← h.holds.head_eq_tail_iff]
  have hhead := h.head
  have htail := h.tail
  simp only [ring]
  omega

theorem Contents.length_eq (h : q.Contents l) : q.length = l.length := by
  obtain ⟨hhead, htail, hcap, -⟩ := h.bounds
  have hzero := h.head
  have hzero' := h.tail
  have hlt : l.length < q.cap.toNat := h.holds.length_lt
  have heq : q.tail.toNat = (q.head.toNat + l.length) % q.cap.toNat :=
    h.holds.tail
  have hsum : int (q.tail + q.cap) = q.tail + q.cap :=
    int_of_bounds (by omega) (by omega)
  rw [length, hsum, int_of_bounds (by omega) (by omega),
    int_of_bounds (by omega) (by omega)]
  by_cases hwrap : q.head.toNat + l.length < q.cap.toNat
  · rw [Nat.mod_eq_of_lt hwrap] at heq
    rw [if_pos (by omega)]
    omega
  · rw [Nat.mod_eq_sub_mod (by omega), Nat.mod_eq_of_lt (by omega)] at heq
    rw [if_neg (by omega)]
    omega

theorem contents_create (handle : ℕ) (memory : ℤ → Message) :
    (create handle memory).Contents [] where
  cap := ⟨0, by decide, rfl⟩
  head := le_rfl
  tail := le_rfl
  threshold := ⟨0, by rw [thresholdFor_zero]; rfl⟩
  holds := ⟨Nat.succ_pos 63, Nat.succ_pos 63, rfl, nofun⟩

theorem next_of_bounds
    {i : ℤ} (hi : 0 ≤ i) (hlt : i < q.cap) (hcap : q.cap ≤ 2 ^ 30) :
    q.next i = RingBuffer.succ q.cap.toNat i.toNat := by
  rw [next, RingBuffer.succ, int_of_bounds (by omega) (by omega)]
  split_ifs <;> omega

theorem Contents.ring_append (h : q.Contents l) (message : Message) :
    (q.append message).ring = q.ring.push message := by
  obtain ⟨-, htail, hcap, -⟩ := h.bounds
  have hpos := h.tail
  have hslot : (fun i : ℕ =>
        some (Function.update q.queue q.tail message i)) =
      Function.update (fun i : ℕ => some (q.queue i)) q.tail.toNat
        (some message) := by
    funext i
    by_cases hi : i = q.tail.toNat
    · subst hi
      rw [Int.toNat_of_nonneg hpos, Function.update_self,
        Function.update_self]
    · rw [Function.update_of_ne hi, Function.update_of_ne (by omega)]
  simp only [ring, append, RingBuffer.push, hslot,
    next_of_bounds hpos htail hcap, Int.toNat_natCast]

/-- A message which takes the last free slot. -/
theorem Contents.full_iff (h : q.Contents l) (message : Message) :
    (q.append message).head = (q.append message).tail ↔
      l.length + 1 = q.cap := by
  obtain ⟨hhead, htail, hcap, hlength⟩ := h.bounds
  have hzero := h.head
  have hzero' := h.tail
  have heq : q.tail.toNat = (q.head.toNat + l.length) % q.cap.toNat :=
    h.holds.tail
  simp only [append, next_of_bounds hzero' htail hcap, RingBuffer.succ]
  by_cases hwrap : q.head.toNat + l.length < q.cap.toNat
  · rw [Nat.mod_eq_of_lt hwrap] at heq
    split_ifs <;> omega
  · rw [Nat.mod_eq_sub_mod (by omega), Nat.mod_eq_of_lt (by omega)] at heq
    split_ifs <;> omega

/-- The message that fills an array of less than `2 ^ 30` messages finds place
in the next one. -/
theorem Contents.store
    (h : q.Contents l) (message : Message) (hfits : l.length + 1 < 2 ^ 30) :
    (q.store message).Contents (l ++ [message]) := by
  have hring := h.ring_append message
  have hfull := h.full_iff message
  obtain ⟨hhead, htail, hcap, -⟩ := h.bounds
  have hpos := h.head
  have htail' : 0 ≤ (q.append message).tail := by
    simp only [append, next_of_bounds h.tail htail hcap]
    omega
  have hhead' : (q.append message).ring.head =
      (q.append message).ring.tail ↔
        (q.append message).head = (q.append message).tail := by
    have hsame : (q.append message).head = q.head := rfl
    simp only [ring]
    omega
  rw [hring] at hhead'
  rw [Queue.store]
  split_ifs with heq
  · obtain ⟨k, hk, hk'⟩ := h.cap
    have hlt : defaultQueueSize * 2 ^ k < defaultQueueSize * 2 ^ 24 := by
      have hmax : defaultQueueSize * 2 ^ 24 = 2 ^ 30 := by decide
      have := hfull.mp heq
      omega
    have hk24 : k < 24 := (Nat.pow_lt_pow_iff_right (by decide)).mp
      (Nat.lt_of_mul_lt_mul_left hlt)
    have hhalf : q.cap ≤ 2 ^ 29 := by
      have hle : defaultQueueSize * 2 ^ k ≤ defaultQueueSize * 2 ^ 23 :=
        Nat.mul_le_mul_left _ (Nat.pow_le_pow_right (by decide) (by omega))
      have hmax : defaultQueueSize * 2 ^ 23 = 2 ^ 29 := by decide
      omega
    have htwice : int (q.cap * 2) = q.cap * 2 :=
      int_of_bounds (by omega) (by omega)
    have hgrow := RingBuffer.Holds.grow (n := q.cap.toNat) h.holds message
      (by omega) (hhead'.mpr heq)
    refine ⟨⟨k + 1, hk24, ?_⟩, le_rfl, ?_, h.threshold, ?_⟩
    · change int (q.cap * 2) = _
      rw [htwice, hk', Nat.pow_succ]
      push_cast
      rw [mul_assoc]
    · change 0 ≤ q.cap
      omega
    · refine hgrow.of_slots ?_ rfl rfl fun i a hi ha => ?_
      · change (int (q.cap * 2)).toNat = q.cap.toNat + q.cap.toNat
        omega
      · rw [← hring] at ha
        simp only [RingBuffer.grow] at ha
        split_ifs at ha with hlt
        have hi' : i < q.cap.toNat := hlt
        have hin : (0 : ℤ) ≤ i ∧ (i : ℤ) < (q.append message).cap := by
          have hsame : (q.append message).cap = q.cap := rfl
          omega
        have hsum : int (q.head + i) % q.cap =
            ((q.head.toNat + i) % q.cap.toNat : ℕ) := by
          rw [int_of_bounds (by omega) (by omega)]
          push_cast
          rw [Int.toNat_of_nonneg hpos, Int.toNat_of_nonneg (by omega)]
        rw [← ha]
        simp only [ring, expand, if_pos hin]
        exact congrArg (fun j => some ((q.append message).queue j)) hsum
  · refine ⟨h.cap, h.head, htail', h.threshold, ?_⟩
    have hpush := RingBuffer.Holds.push h.holds message (mt hhead'.mp heq)
    rwa [← hring] at hpush

variable {message : Message}

/-- `skynet_mq_pop` takes the first message and computes the number of the
others. -/
theorem Contents.pop_cons
    {peak : ℕ} (h : q.Contents (message :: l))
    (hpeak : q.overloadThreshold = thresholdFor peak) :
    q.pop = some (some message, { q with
      head := q.next q.head
      overload := if l.length > thresholdFor peak then (l.length : ℤ)
        else q.overload
      overloadThreshold := thresholdFor (max peak l.length) }) := by
  have hpending : q.head ≠ q.tail := fun heq =>
    List.cons_ne_nil _ _ (h.head_eq_tail_iff.mp heq)
  obtain ⟨hhead, htail, hcap, hlength⟩ := h.bounds
  have hzero := h.head
  have hzero' := h.tail
  have hfirst : some (q.queue q.head.toNat) = some message := h.holds.first
  rw [Int.toNat_of_nonneg hzero] at hfirst
  have hdrop := RingBuffer.Holds.drop h.holds
  have hnext := next_of_bounds hzero hhead hcap
  have hlt : RingBuffer.succ q.cap.toNat q.head.toNat < q.cap.toNat :=
    hdrop.head_lt
  have heq : q.tail.toNat =
      (RingBuffer.succ q.cap.toNat q.head.toNat + l.length) % q.cap.toNat :=
    hdrop.tail
  rw [List.length_cons] at hlength
  have hcount : (if int (q.tail - q.next q.head) < 0 then
        int (int (q.tail - q.next q.head) + q.cap)
      else int (q.tail - q.next q.head)) = l.length := by
    rw [hnext]
    generalize RingBuffer.succ q.cap.toNat q.head.toNat = head at hlt heq
    rw [int_of_bounds (by omega) (by omega),
      int_of_bounds (by omega) (by omega)]
    by_cases hwrap : head + l.length < q.cap.toNat
    · rw [Nat.mod_eq_of_lt hwrap] at heq
      rw [if_neg (by omega)]
      omega
    · rw [Nat.mod_eq_sub_mod (by omega), Nat.mod_eq_of_lt (by omega)] at heq
      rw [if_pos (by omega)]
      omega
  have hraise := raiseThreshold_spec (q := { q with head := q.next q.head })
    (n := 33) (by omega : l.length < 2 ^ 30) hpeak (le_thresholdFor peak)
    (thresholdFor_mono (le_max_left _ _))
    (by
      calc l.length ≤ 1 * 2 ^ 33 := by omega
        _ ≤ thresholdFor peak * 2 ^ 33 :=
          Nat.mul_le_mul_right _ (Nat.mul_pos (by decide) (Nat.two_pow_pos _)))
  rw [pop, if_pos hpending]
  dsimp only
  rw [hcount, hraise, hfirst]
  rfl

theorem Contents.pop_nil (h : q.Contents []) :
    q.pop = some (none,
      { q with overloadThreshold := mqOverload, inGlobal := false }) := by
  have hempty : ¬ q.head ≠ q.tail := not_not.mpr (h.head_eq_tail_iff.mpr rfl)
  rw [pop, if_neg hempty]

/-- The messages that are left are those behind the first one. -/
theorem Contents.pop
    (h : q.Contents (message :: l)) :
    ∃ q', q.pop = some (some message, q') ∧ q'.Contents l := by
  obtain ⟨hhead, -, hcap, -⟩ := h.bounds
  obtain ⟨peak, hpeak⟩ := h.threshold
  have hnext := next_of_bounds h.head hhead hcap
  refine ⟨_, h.pop_cons hpeak, h.cap, ?_, h.tail, ⟨_, rfl⟩, ?_⟩
  · dsimp only
    omega
  · refine (RingBuffer.Holds.drop h.holds).of_slots rfl ?_ rfl
      fun _ _ _ ha => ha
    change (q.next q.head).toNat = _
    rw [hnext]
    rfl

theorem Contents.takeOverload (h : q.Contents l) :
    q.takeOverload.2.Contents l := by
  rw [Queue.takeOverload]
  split_ifs
  · exact { h with }
  · exact h

/-- The queue holds some messages. -/
def Sound (q : Queue) : Prop := ∃ l, q.Contents l

theorem Sound.pop
    {r : Option Message} {q' : Queue} (h : q.Sound)
    (hpop : q.pop = some (r, q')) : q'.Sound := by
  obtain ⟨l, hl⟩ := h
  cases l with
  | nil =>
      rw [hl.pop_nil] at hpop
      cases hpop
      exact ⟨[], { hl with threshold := ⟨0, by rw [thresholdFor_zero]⟩ }⟩
  | cons message l =>
      obtain ⟨q₁, hpop', hl'⟩ := hl.pop
      rw [hpop'] at hpop
      cases hpop
      exact ⟨l, hl'⟩

/-! ## The limit of the capacity -/

/-- The queue is at the end of what an `int` can count: its capacity is not
positive any more. -/
structure Overflown (q : Queue) : Prop where
  cap : q.cap < 0
  head : q.head = 0
  tail : q.tail = 2 ^ 30

theorem Overflown.pending (h : Overflown q) : q.Pending := by
  rw [Pending, h.head, h.tail]
  decide

/-- A pop leaves the queue as it is. -/
theorem Overflown.pop
    {q' : Queue} (h : Overflown q)
    (hpop : q.pop = some (some message, q')) : Overflown q' := by
  obtain ⟨-, -, _, _, rfl⟩ := pop_some hpop
  refine ⟨h.cap, ?_, h.tail⟩
  have hcap := h.cap
  rw [next, h.head, if_pos]
  exact hcap.le.trans (by decide)

/-- A queue which becomes full with `2 ^ 30` messages. -/
theorem Contents.overflow
    (h : q.Contents l) (message : Message) (hlength : l.length + 1 = 2 ^ 30) :
    Overflown (q.store message) := by
  obtain ⟨-, -, hle, hlt⟩ := h.bounds
  have hcap : q.cap = 2 ^ 30 := by omega
  have hfull := (h.full_iff message).mpr (by omega)
  rw [Queue.store, if_pos hfull]
  refine ⟨?_, rfl, hcap⟩
  change int (q.cap * 2) < 0
  rw [hcap]
  decide

end Queue

end SkynetServer.Mq
