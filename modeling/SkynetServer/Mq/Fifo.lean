import SkynetServer.Mq.Contents

/-!
# A message queue is a first-in first-out list

`Fifo` says what a message queue is for: a list of messages, with the largest
number of messages that were left since the queue was last found empty, from
which the threshold for the overload follows.

A call of `skynet_mq_push` or `skynet_mq_pop` does to the ring what it does to
the list, as long as there are fewer than `2 ^ 30` messages.
-/

namespace SkynetServer.Mq

/-- A message queue as a list. -/
structure Fifo where
  messages : List Message
  /-- the most messages that a pop left since a pop last found none -/
  peak : ℕ
  overload : ℕ

inductive Op where
  | push (message : Message)
  | pop

namespace Fifo

def empty : Fifo := ⟨[], 0, 0⟩

def push (f : Fifo) (message : Message) : Fifo :=
  { f with messages := f.messages ++ [message] }

/-- The oldest message is taken.  The overload is the number of the others when
they are more than the threshold. -/
def pop (f : Fifo) : Option Message × Fifo :=
  match f.messages with
  | [] => (none, { f with peak := 0 })
  | message :: rest =>
    (some message,
      { messages := rest
        peak := max f.peak rest.length
        overload :=
          if rest.length > thresholdFor f.peak then rest.length
          else f.overload })

/-- The results of the pops, and the list. -/
def run : Fifo → List Op → List (Option Message) × Fifo
  | f, [] => ([], f)
  | f, .push message :: ops => run (f.push message) ops
  | f, .pop :: ops => (f.pop.1 :: (run f.pop.2 ops).1, (run f.pop.2 ops).2)

/-- There are never `2 ^ 30` messages. -/
def Fits : Fifo → List Op → Prop
  | _, [] => True
  | f, .push message :: ops =>
    f.messages.length + 1 < 2 ^ 30 ∧ Fits (f.push message) ops
  | f, .pop :: ops => Fits f.pop.2 ops

end Fifo

namespace Queue

/-- The results of the pops, and the queue, when all loops end. -/
def run : Queue → List Op → Option (List (Option Message) × Queue)
  | q, [] => some ([], q)
  | q, .push message :: ops => run (q.push message) ops
  | q, .pop :: ops =>
    match q.pop with
    | none => none
    | some (message, q) => (run q ops).map fun r => (message :: r.1, r.2)

/-- The fields are those of a queue with the messages of the list. -/
structure Represents (q : Queue) (f : Fifo) : Prop where
  length : q.length = f.messages.length
  head : 0 ≤ q.head ∧ q.head < q.cap
  tail : 0 ≤ q.tail ∧ q.tail < q.cap
  empty : q.head = q.tail ↔ f.messages = []
  overload : q.overload = f.overload
  threshold : q.overloadThreshold = thresholdFor f.peak

/-- The queue holds the messages, with their overload. -/
structure Tracks (q : Queue) (f : Fifo) : Prop where
  contents : q.Contents f.messages
  overload : q.overload = f.overload
  threshold : q.overloadThreshold = thresholdFor f.peak

variable {q : Queue} {f : Fifo}

theorem Tracks.represents (h : q.Tracks f) : q.Represents f where
  length := h.contents.length_eq
  head := ⟨h.contents.head, h.contents.bounds.1⟩
  tail := ⟨h.contents.tail, h.contents.bounds.2.1⟩
  empty := h.contents.head_eq_tail_iff
  overload := h.overload
  threshold := h.threshold

theorem tracks_create (handle : ℕ) (memory : ℤ → Message) :
    (create handle memory).Tracks .empty where
  contents := contents_create handle memory
  overload := rfl
  threshold := congrArg Nat.cast thresholdFor_zero.symm

theorem Tracks.push
    (h : q.Tracks f) (message : Message)
    (hfits : f.messages.length + 1 < 2 ^ 30) :
    (q.push message).Tracks (f.push message) where
  contents := { h.contents.store message hfits with }
  overload := (q.store_threshold message).1.trans h.overload
  threshold := (q.store_threshold message).2.trans h.threshold

theorem Tracks.pop (h : q.Tracks f) :
    ∃ q', q.pop = some (f.pop.1, q') ∧ q'.Tracks f.pop.2 := by
  have hcontents := h.contents
  cases hmessages : f.messages with
  | nil =>
      rw [hmessages] at hcontents
      rw [hcontents.pop_nil, Fifo.pop, hmessages]
      have hzero : (mqOverload : ℤ) = thresholdFor 0 :=
        congrArg Nat.cast thresholdFor_zero.symm
      exact ⟨_, rfl,
        { contents := { hcontents with threshold := ⟨0, hzero⟩ }
          overload := h.overload
          threshold := hzero }⟩
  | cons message rest =>
      rw [hmessages] at hcontents
      obtain ⟨q', hpop, hleft⟩ := hcontents.pop
      refine ⟨q', ?_, ?_⟩
      · rw [hpop, Fifo.pop, hmessages]
      · rw [hcontents.pop_cons h.threshold] at hpop
        cases hpop
        rw [Fifo.pop, hmessages]
        refine ⟨hleft, ?_, rfl⟩
        dsimp only
        split_ifs
        · rfl
        · exact h.overload

/-- The calls of a sequence that fits have the results of the list. -/
theorem Tracks.run
    (h : q.Tracks f) (ops : List Op) (hfits : f.Fits ops) :
    ∃ q', q.run ops = some ((f.run ops).1, q') ∧
      q'.Tracks (f.run ops).2 := by
  induction ops generalizing q f with
  | nil => exact ⟨q, rfl, h⟩
  | cons op ops ih =>
      cases op with
      | push message =>
          rw [Queue.run, Fifo.run]
          exact ih (h.push message hfits.1) hfits.2
      | pop =>
          obtain ⟨q', hpop, h'⟩ := h.pop
          obtain ⟨q'', hrun, h''⟩ := ih h' hfits
          refine ⟨q'', ?_, h''⟩
          rw [Queue.run, hpop]
          dsimp only
          rw [hrun]
          rfl

end Queue

/-- A queue is a list of messages as long as there are less than `2 ^ 30`. -/
theorem ring_is_fifo
    (handle : ℕ) (memory : ℤ → Message) (ops : List Op)
    (hfits : Fifo.empty.Fits ops) :
    ∃ q, (create handle memory).run ops = some ((Fifo.empty.run ops).1, q) ∧
      q.Represents (Fifo.empty.run ops).2 := by
  obtain ⟨q, hrun, h⟩ := (Queue.tracks_create handle memory).run ops hfits
  exact ⟨q, hrun, h.represents⟩

/-- A message is popped, and then none. -/
theorem ring_is_fifo_of_push_pop_pop :
    ∃ q, (create 1 fun _ => ⟨0, 0, 0, 0⟩).run
        [.push ⟨1, 2, 3, 4⟩, .pop, .pop] =
          some ([some ⟨1, 2, 3, 4⟩, none], q) ∧
      q.Represents ⟨[], 0, 0⟩ := by
  obtain ⟨q, hrun, h⟩ := ring_is_fifo 1 (fun _ => ⟨0, 0, 0, 0⟩)
    [.push ⟨1, 2, 3, 4⟩, .pop, .pop] ⟨by decide, trivial⟩
  exact ⟨q, hrun, h⟩

/-! ## The limit of the capacity -/

section Limit

theorem run_replicate (f : Fifo) (message : Message) (n : ℕ) :
    f.run (List.replicate n (.push message)) =
      ([], { f with
        messages := f.messages ++ List.replicate n message }) := by
  induction n generalizing f with
  | zero => simp [Fifo.run]
  | succ n ih =>
      rw [List.replicate_succ, Fifo.run, ih]
      simp [Fifo.push, List.replicate_succ]

theorem fits_replicate
    {f : Fifo} (message : Message) {n : ℕ}
    (h : f.messages.length + n < 2 ^ 30) :
    f.Fits (List.replicate n (.push message)) := by
  induction n generalizing f with
  | zero => trivial
  | succ n ih =>
      rw [List.replicate_succ]
      refine ⟨by omega, ih ?_⟩
      simp only [Fifo.push, List.length_append, List.length_singleton]
      omega

theorem Queue.run_append
    (q : Queue) (ops : List Op) (message : Message) :
    q.run (ops ++ [.push message]) =
      (q.run ops).map fun r => (r.1, r.2.push message) := by
  induction ops generalizing q with
  | nil => rfl
  | cons op ops ih =>
      cases op with
      | push m => exact ih (q.push m)
      | pop =>
          rw [List.cons_append, Queue.run, Queue.run]
          cases q.pop with
          | none => rfl
          | some r =>
              dsimp only
              rw [ih]
              simp [Option.map_map, Function.comp_def]

/-- After `2 ^ 30` pushes the head is not below the capacity. -/
theorem not_represents_pushes
    (handle : ℕ) (memory : ℤ → Message) (message : Message) {n : ℕ}
    (hn : n + 1 = 2 ^ 30) (q : Queue)
    (hrun : (create handle memory).run
      (List.replicate n (.push message) ++ [.push message]) =
        some ((Fifo.empty.run
          (List.replicate n (.push message) ++ [.push message])).1, q)) :
    ¬q.Represents (Fifo.empty.run
      (List.replicate n (.push message) ++ [.push message])).2 := by
  intro h
  have hfits : Fifo.empty.Fits (List.replicate n (.push message)) := by
    refine fits_replicate message ?_
    simp only [Fifo.empty, List.length_nil]
    omega
  obtain ⟨q', hrun', htracks⟩ :=
    (Queue.tracks_create handle memory).run _ hfits
  rw [Queue.run_append, hrun'] at hrun
  simp only [Option.map_some, Option.some.injEq, Prod.mk.injEq] at hrun
  obtain ⟨-, rfl⟩ := hrun
  rw [run_replicate] at htracks
  have hover := htracks.contents.overflow message (by
    simp only [Fifo.empty, List.nil_append, List.length_replicate]
    exact hn)
  have hhead := h.head
  have hcap : (q'.push message).cap < 0 := hover.cap
  omega

/-- The sequence of `2 ^ 30` pushes. -/
theorem not_fifo :
    ∃ ops : List Op, ∀ q, (create 1 fun _ => ⟨0, 0, 0, 0⟩).run ops =
        some ((Fifo.empty.run ops).1, q) →
      ¬q.Represents (Fifo.empty.run ops).2 := by
  obtain ⟨n, hn⟩ : ∃ n, n + 1 = 2 ^ 30 := ⟨1073741823, by decide⟩
  exact ⟨_, not_represents_pushes _ _ ⟨0, 0, 0, 0⟩ hn⟩

end Limit

end SkynetServer.Mq
