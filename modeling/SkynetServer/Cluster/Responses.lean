import Mathlib.Data.List.Nodup
import SkynetServer.Cluster.Channel

/-!
# Coroutines go on with their responses

The packages of different responses may interleave in any order, as the
channel keeps the data of each in a table of the coroutine that waits for it.
A coroutine is woken when the last package of its response is read, and at no
other time.
-/

namespace SkynetServer.Cluster.Session

open Function Transition

/-! ## Packages are read back -/

section Unpack

variable {session : ℕ}

/-- A package is read by its type. -/
theorem unpackresponse_type
    (hsession : session < 2 ^ 32) (type : UInt8) (data : List UInt8) :
    unpackresponse (fillUint32 session ++ [type] ++ data) =
      match type with
      | 0 => some ⟨session, false, .msg data, false⟩
      | 1 => some ⟨session, true, .msg data, false⟩
      | 4 => some ⟨session, true, .msg data, false⟩
      | 2 =>
        if 5 + data.length ≠ 9 then none
        else some ⟨session, true, .size (unpackUint32 data 0), true⟩
      | 3 => some ⟨session, true, .msg data, true⟩
      | _ => none := by
  have hlen : (fillUint32 session ++ [type] ++ data).length =
      5 + data.length := by
    simp only [List.length_append, length_fillUint32, List.length_singleton]
  have hsess : unpackUint32 (fillUint32 session ++ [type] ++ data) 0 =
      session := by
    have h := unpackUint32_append [] ([type] ++ data) hsession
    simpa only [List.nil_append, List.append_assoc, List.length_nil] using h
  have hdata : (fillUint32 session ++ [type] ++ data).drop 5 = data :=
    List.drop_left' (by simp only [List.length_append, length_fillUint32,
      List.length_singleton])
  have htype : (fillUint32 session ++ [type] ++ data).drop 4 =
      type :: data := by
    rw [List.append_assoc]
    exact List.drop_left' (length_fillUint32 session)
  have hsize : unpackUint32 (fillUint32 session ++ [type] ++ data) 5 =
      unpackUint32 data 0 := by
    rw [unpackUint32, unpackUint32, hdata, List.drop_zero]
  rw [unpackresponse, if_neg (by omega)]
  simp only [htype, List.headD_cons, hsess, hdata, hlen, hsize] <;> rfl

theorem unpack_whole
    (hsession : session < 2 ^ 32) (ok : Bool) (data : List UInt8) :
    unpackresponse (fillUint32 session ++ [if ok then 1 else 0] ++ data) =
      some ⟨session, ok, .msg data, false⟩ := by
  rw [unpackresponse_type hsession]
  cases ok
  · rfl
  · rfl

theorem unpack_begin
    (hsession : session < 2 ^ 32) {size : ℕ} (hsize : size < 2 ^ 32) :
    unpackresponse (fillUint32 session ++ [2] ++ fillUint32 size) =
      some ⟨session, true, .size size, true⟩ := by
  have hread : unpackUint32 (fillUint32 size) 0 = size := by
    have h := unpackUint32_append [] [] hsize
    simpa only [List.nil_append, List.append_nil, List.length_nil] using h
  rw [unpackresponse_type hsession]
  simp only [length_fillUint32, hread]
  rfl

theorem unpack_part
    (hsession : session < 2 ^ 32) (part : Bool × List UInt8) :
    unpackresponse ((packResponsePart session part).drop 2) =
      some ⟨session, true, .msg part.2, part.1⟩ := by
  have hdrop : (packResponsePart session part).drop 2 =
      fillUint32 session ++ [if part.1 then 3 else 4] ++ part.2 := rfl
  rw [hdrop, unpackresponse_type hsession]
  obtain ⟨more, bytes⟩ := part
  cases more
  · rfl
  · rfl

end Unpack

/-- Every package of a response is a package of the stream. -/
theorem framed_packresponse
    (session : ℕ) (ok : Bool) (msg : List UInt8) :
    ∀ package ∈ packresponse session ok msg, Framed package := by
  rw [packresponse]
  by_cases hlong : ok = true ∧ msg.length > multiPart
  · rw [if_pos hlong]
    have hne : msg ≠ [] := by
      intro h
      rw [h] at hlong
      exact absurd hlong.2 (by decide)
    have hle :=
      (Parts.cut_spec multiPart_pos hne).length_le
    refine List.forall_mem_cons.mpr ⟨?_, ?_⟩
    · rw [List.append_assoc, List.append_assoc]
      apply framed_fillHeader
      · simp only [List.length_append, length_fillUint32,
          List.length_singleton]
      · omega
    · intro package hmem
      obtain ⟨part, hpart, rfl⟩ := List.mem_map.mp hmem
      have hpartLen : part.2.length ≤ multiPart := hle part hpart
      unfold multiPart at hpartLen
      rw [packResponsePart, List.append_assoc, List.append_assoc]
      apply framed_fillHeader
      · simp only [List.length_append, length_fillUint32,
          List.length_singleton]
        omega
      · omega
  · rw [if_neg hlong]
    refine List.forall_mem_singleton.mpr ?_
    have hshort : (if ok then msg else msg.take multiPart).length ≤
        multiPart := by
      cases ok with
      | true => exact Nat.le_of_not_lt fun h => hlong ⟨rfl, h⟩
      | false => exact List.length_take_le _ _
    have hlimit : multiPart = 0x8000 := rfl
    rw [List.append_assoc, List.append_assoc]
    apply framed_fillHeader
    · simp only [List.length_append, length_fillUint32,
        List.length_singleton]
      omega
    · omega

/-! ## One turn of the dispatcher -/

section Dispatch

variable {c : Channel} {session co : ℕ} {item : Item}

theorem dispatch_padding
    (hthread : c.thread session = some co) {items : List Item}
    (hdata : (c.resultData co).getD (.table []) = .table items) :
    c.dispatchBySession (some ⟨session, true, item, true⟩) =
      .ok { c with
        resultData := update c.resultData co
          (some (.table (items ++ [item]))) } := by
  simp only [Channel.dispatchBySession, hthread, hdata, Channel.insert,
    and_self, if_true]

theorem dispatch_end
    (hthread : c.thread session = some co) (hsleep : c.sleeping co = true)
    {items : List Item} (hdata : c.resultData co = some (.table items)) :
    c.dispatchBySession (some ⟨session, true, item, false⟩) =
      .ok { c with
        thread := update c.thread session none
        result := update c.result co (some true)
        resultData := update c.resultData co
          (some (.table (items ++ [item])))
        wakeupQueue := c.wakeupQueue ++ [co] } := by
  simp only [Channel.dispatchBySession, hthread, hdata, Channel.insert,
    Bool.false_eq_true, false_and, if_false, if_true, Except.map,
    Channel.wakeup, hsleep]

theorem dispatch_whole
    (hthread : c.thread session = some co) (hsleep : c.sleeping co = true)
    (hdata : c.resultData co = none) (ok : Bool) :
    c.dispatchBySession (some ⟨session, ok, item, false⟩) =
      .ok { c with
        thread := update c.thread session none
        result := update c.result co (some ok)
        resultData := update c.resultData co (some (.item item))
        wakeupQueue := c.wakeupQueue ++ [co] } := by
  cases ok with
  | true =>
      simp only [Channel.dispatchBySession, hthread, hdata,
        Bool.false_eq_true, false_and, if_false, if_true, Channel.wakeup,
        hsleep]
  | false =>
      simp only [Channel.dispatchBySession, hthread, Bool.false_eq_true,
        and_self, if_false, Channel.wakeup, hsleep, if_true]

end Dispatch

/-! ## The invariant -/

/-- The coroutine waits for the session. -/
structure Waiting (c : Channel) (session co : ℕ) : Prop where
  lt : session < 2 ^ 32
  thread : c.thread session = some co
  sleeping : c.sleeping co = true
  not_queued : co ∉ c.wakeupQueue

/-- No package of the answer was read, or the table of the coroutine holds the
size and the parts that were. -/
inductive Receiving (a : Answer) (packages : List (List UInt8)) :
    Option Data → Prop
  | whole : packages = packresponse a.session a.ok a.msg →
      Receiving a packages none
  | parts (done left : List (Bool × List UInt8)) : a.ok = true →
      Parts.Cut multiPart a.msg (done ++ left) → left ≠ [] →
      packages = left.map (packResponsePart a.session) →
      Receiving a packages
        (some (.table (.size a.msg.length :: done.map fun p => .msg p.2)))

/-- What the channel holds for a session. -/
def Holds (c : Channel) (session : ℕ) : Option Phase → Prop
  | none => c.thread session = none
  | some (.asked co) => Waiting c session co ∧ c.resultData co = none
  | some (.answering a packages) =>
    Waiting c session a.co ∧ a.session = session ∧ a.msg.length < 2 ^ 31 ∧
      Receiving a packages (c.resultData a.co)

structure Inv (s : State) : Prop where
  holds : ∀ session, Holds s.channel session (s.pending session)
  distinct : ∀ session session' phase phase',
    s.pending session = some phase → s.pending session' = some phase' →
      phase.co = phase'.co → session = session'
  queue_nodup : s.channel.wakeupQueue.Nodup
  queue_sleeping : ∀ co ∈ s.channel.wakeupQueue,
    s.channel.sleeping co = true
  awake : ∀ co, s.channel.sleeping co = false →
    s.channel.resultData co = none
  ledger : s.returned ++ s.channel.wakeupQueue.map s.channel.outcome =
    s.delivered.map Answer.outcome

theorem inv_init : Inv .init where
  holds := fun _ => rfl
  distinct := fun _ _ _ _ h => (by cases h)
  queue_nodup := List.nodup_nil
  queue_sleeping := fun _ h => (by cases h)
  awake := fun _ _ => rfl
  ledger := rfl

theorem Holds.waiting
    {c : Channel} {session : ℕ} {phase : Phase}
    (h : Holds c session (some phase)) : Waiting c session phase.co := by
  cases phase with
  | asked co | answering a packages => exact h.1

/-- Nothing of the other coroutine and the other sessions is changed. -/
structure Untouched (c c' : Channel) (session co : ℕ) : Prop where
  thread : c'.thread session = c.thread session
  sleeping : c'.sleeping co = c.sleeping co
  resultData : c'.resultData co = c.resultData co
  queued : co ∈ c'.wakeupQueue → co ∈ c.wakeupQueue

theorem Waiting.congr
    {c c' : Channel} {session co : ℕ} (h : Waiting c session co)
    (huntouched : Untouched c c' session co) : Waiting c' session co where
  lt := h.lt
  thread := huntouched.thread.trans h.thread
  sleeping := huntouched.sleeping.trans h.sleeping
  not_queued := mt huntouched.queued h.not_queued

theorem Holds.congr
    {c c' : Channel} {session : ℕ} {entry : Option Phase}
    (h : Holds c session entry) (hthread : c'.thread session = c.thread session)
    (huntouched : ∀ phase, entry = some phase →
      Untouched c c' session phase.co) : Holds c' session entry := by
  cases entry with
  | none => exact hthread.trans h
  | some phase =>
      have hother := huntouched phase rfl
      cases phase with
      | asked co => exact ⟨h.1.congr hother, hother.resultData.trans h.2⟩
      | answering a packages =>
          obtain ⟨hwaiting, hsession, hlen, hreceiving⟩ := h
          have hdata : c'.resultData a.co = c.resultData a.co :=
            hother.resultData
          rw [← hdata] at hreceiving
          exact ⟨hwaiting.congr hother, hsession, hlen, hreceiving⟩

/-! ## Packages of a response -/

section Packages

variable {c : Channel} {a : Answer} {package : List UInt8}
  {packages : List (List UInt8)}

/-- The last package is read. -/
def Ends (c : Channel) (a : Answer) (package : List UInt8) : Prop :=
  ∃ data : Data,
    data.bytes = some (if a.ok then a.msg else a.msg.take multiPart) ∧
    c.dispatchBySession (unpackresponse (package.drop 2)) =
      .ok { c with
        thread := update c.thread a.session none
        result := update c.result a.co (some a.ok)
        resultData := update c.resultData a.co (some data)
        wakeupQueue := c.wakeupQueue ++ [a.co] }

/-- A package is read, and others follow. -/
def Pads (c : Channel) (a : Answer) (package : List UInt8)
    (packages : List (List UInt8)) : Prop :=
  ∃ items : List Item, Receiving a packages (some (.table items)) ∧
    c.dispatchBySession (unpackresponse (package.drop 2)) =
      .ok { c with
        resultData := update c.resultData a.co
          (some (.table items)) }

theorem read_whole
    (hwaiting : Waiting c a.session a.co) (hlen : a.msg.length < 2 ^ 31)
    (hdata : c.resultData a.co = none)
    (hpackages : package :: packages =
      packresponse a.session a.ok a.msg) :
    packages = [] ∧ Ends c a package ∨
      packages ≠ [] ∧ Pads c a package packages := by
  rw [packresponse] at hpackages
  by_cases hlong : a.ok = true ∧ a.msg.length > multiPart
  · rw [if_pos hlong, List.cons.injEq] at hpackages
    obtain ⟨rfl, rfl⟩ := hpackages
    have hne : a.msg ≠ [] := by
      intro h
      rw [h] at hlong
      exact absurd hlong.2 (by decide)
    have hcut := Parts.cut_spec multiPart_pos hne
    right
    refine ⟨mt List.map_eq_nil_iff.mp hcut.ne_nil, [.size a.msg.length],
      .parts [] _ hlong.1 hcut hcut.ne_nil rfl, ?_⟩
    have hread := unpack_begin hwaiting.lt
      (show a.msg.length < 2 ^ 32 by omega)
    have hnone : (c.resultData a.co).getD (.table []) = .table [] := by
      rw [hdata]
      rfl
    exact (congrArg _ hread).trans (dispatch_padding hwaiting.thread hnone)
  · rw [if_neg hlong] at hpackages
    dsimp only at hpackages
    rw [List.cons.injEq] at hpackages
    obtain ⟨rfl, rfl⟩ := hpackages
    left
    refine ⟨rfl, .item (.msg (if a.ok then a.msg
      else a.msg.take multiPart)), rfl, ?_⟩
    have hread := unpack_whole hwaiting.lt a.ok
      (if a.ok then a.msg else a.msg.take multiPart)
    exact (congrArg _ hread).trans
      (dispatch_whole hwaiting.thread hwaiting.sleeping hdata a.ok)

theorem read_part
    (hwaiting : Waiting c a.session a.co) (hlen : a.msg.length < 2 ^ 31)
    {done left : List (Bool × List UInt8)} (hok : a.ok = true)
    (hcut : Parts.Cut multiPart a.msg (done ++ left))
    (hpackages : package :: packages =
      left.map (packResponsePart a.session))
    (hdata : c.resultData a.co =
      some (.table (.size a.msg.length :: done.map fun p => .msg p.2))) :
    packages = [] ∧ Ends c a package ∨
      packages ≠ [] ∧ Pads c a package packages := by
  obtain _ | ⟨part, left⟩ := left
  · cases hpackages
  rw [List.map_cons, List.cons.injEq] at hpackages
  obtain ⟨rfl, rfl⟩ := hpackages
  have hread := unpack_part hwaiting.lt part
  rw [List.map_eq_nil_iff]
  by_cases hlast : left = []
  · subst hlast
    have hmark : part.1 = false := by
      rw [← Bool.not_eq_true, hcut.marked_iff]
      exact not_not.mpr rfl
    have hconcat := concat_cut hcut hlen
    rw [List.map_append] at hconcat
    rw [hmark] at hread
    left
    refine ⟨rfl, .table ((.size a.msg.length ::
      done.map fun p => .msg p.2) ++ [.msg part.2]), ?_, ?_⟩
    · rw [if_pos hok]
      exact hconcat
    · rw [hread, hok]
      exact dispatch_end hwaiting.thread hwaiting.sleeping hdata
  · have hmark : part.1 = true := hcut.marked_iff.mpr hlast
    rw [hmark] at hread
    right
    refine ⟨mt List.map_eq_nil_iff.mp hlast, (.size a.msg.length :: done.map fun p => .msg p.2) ++
      [.msg part.2], ?_, ?_⟩
    · rw [List.append_cons] at hcut
      have hparts := Receiving.parts (done ++ [part]) left hok hcut hlast rfl
      rw [List.map_append] at hparts
      exact hparts
    · rw [hread]
      apply dispatch_padding hwaiting.thread
      rw [hdata]
      rfl

end Packages

section Steps

variable {s : State} {session : ℕ}

/-- The coroutine of another session is another one. -/
theorem Inv.co_ne
    (hinv : Inv s) {phase phase' : Phase}
    (hpending : s.pending session = some phase) {other : ℕ}
    (hne : other ≠ session) (hother : s.pending other = some phase') :
    phase'.co ≠ phase.co :=
  fun heq => hne (hinv.distinct other session phase' phase hother hpending heq)

/-- The entry of a session is replaced, and of the channel what belongs to
the session and its coroutine. -/
theorem Inv.update
    (hinv : Inv s) (co : ℕ) {entry : Option Phase} {c : Channel}
    {delivered : List Answer} {returned : List Outcome}
    (hother : ∀ other phase, other ≠ session →
      s.pending other = some phase → phase.co ≠ co)
    (hthread : ∀ other ≠ session,
      c.thread other = s.channel.thread other)
    (hsleeping : ∀ other ≠ co,
      c.sleeping other = s.channel.sleeping other)
    (hdata : ∀ other ≠ co,
      c.resultData other = s.channel.resultData other)
    (hqueued : ∀ other ≠ co,
      other ∈ c.wakeupQueue → other ∈ s.channel.wakeupQueue)
    (hholds : Holds c session entry)
    (hco : ∀ phase, entry = some phase → phase.co = co)
    (hnodup : c.wakeupQueue.Nodup)
    (hqueue : ∀ co ∈ c.wakeupQueue, c.sleeping co = true)
    (hawake : c.sleeping co = false → c.resultData co = none)
    (hledger : returned ++ c.wakeupQueue.map c.outcome =
      delivered.map Answer.outcome) :
    Inv ⟨update s.pending session entry, c, delivered,
      returned⟩ where
  holds other := by
    dsimp only
    by_cases heq : other = session
    · subst heq
      rw [update_self]
      exact hholds
    · rw [update_of_ne heq]
      apply (hinv.holds other).congr (hthread other heq)
      intro phase hphase
      have hne := hother other phase heq hphase
      constructor
      · exact hthread other heq
      · exact hsleeping _ hne
      · exact hdata _ hne
      · exact hqueued _ hne
  distinct := by
    intro n m phase phase' hn hm hsame
    dsimp only at hn hm
    by_cases hn' : n = session
    · by_cases hm' : m = session
      · rw [hn', hm']
      · subst hn'
        rw [update_self] at hn
        rw [update_of_ne hm'] at hm
        exact absurd (hsame.symm.trans (hco phase hn))
          (hother m phase' hm' hm)
    · rw [update_of_ne hn'] at hn
      by_cases hm' : m = session
      · subst hm'
        rw [update_self] at hm
        exact absurd (hsame.trans (hco phase' hm)) (hother n phase hn' hn)
      · rw [update_of_ne hm'] at hm
        exact hinv.distinct n m phase phase' hn hm hsame
  queue_nodup := hnodup
  queue_sleeping := hqueue
  awake other hsleep := by
    dsimp only at hsleep ⊢
    by_cases heq : other = co
    · subst heq
      exact hawake hsleep
    · rw [hsleeping other heq] at hsleep
      rw [hdata other heq]
      exact hinv.awake other hsleep
  ledger := hledger

/-- A coroutine that does not sleep has no pending session. -/
theorem Inv.co_ne_of_awake
    (hinv : Inv s) {co : ℕ} (hawake : s.channel.sleeping co = false)
    {other : ℕ} {phase : Phase} (hother : s.pending other = some phase) :
    phase.co ≠ co := by
  intro heq
  have hholds := hinv.holds other
  rw [hother] at hholds
  have hsleep := hholds.waiting.sleeping
  rw [heq, hawake] at hsleep
  cases hsleep

/-- A coroutine waits for a new session. -/
theorem inv_request
    (hinv : Inv s) {co : ℕ} (hlt : session < 2 ^ 32)
    (hawake : s.channel.sleeping co = false) :
    Inv { s with
      pending := update s.pending session (some (.asked co))
      channel := s.channel.waitForResponse session co } := by
  have hqueued : co ∉ s.channel.wakeupQueue := by
    intro hmem
    have hsleep := hinv.queue_sleeping co hmem
    rw [hawake] at hsleep
    cases hsleep
  apply hinv.update co
  · exact fun other phase _ hother => hinv.co_ne_of_awake hawake hother
  · exact fun other hne => update_of_ne hne _ _
  · exact fun other hne => update_of_ne hne _ _
  · exact fun _ _ => rfl
  · exact fun _ _ hmem => hmem
  · refine ⟨?_, hinv.awake co hawake⟩
    constructor
    · exact hlt
    · exact update_self _ _ _
    · exact update_self _ _ _
    · exact hqueued
  · intro phase hphase
    cases hphase
    rfl
  · exact hinv.queue_nodup
  · intro other hmem
    have hne : other ≠ co := fun heq => hqueued (heq ▸ hmem)
    exact (update_of_ne hne _ _).trans
      (hinv.queue_sleeping other hmem)
  · intro hsleep
    exact hinv.awake co hawake
  · exact hinv.ledger

/-- The agent answers. -/
theorem inv_respond
    (hinv : Inv s) {co : ℕ} (hpending : s.pending session = some (.asked co))
    (ok : Bool) {msg : List UInt8} (hlen : msg.length < 2 ^ 31) :
    Inv { s with
      pending := update s.pending session
        (some (.answering ⟨co, session, ok, msg⟩
          (packresponse session ok msg))) } := by
  have hholds := hinv.holds session
  rw [hpending] at hholds
  apply hinv.update co
  · exact fun other phase hne hother => hinv.co_ne hpending hne hother
  · exact fun _ _ => rfl
  · exact fun _ _ => rfl
  · exact fun _ _ => rfl
  · exact fun _ _ hmem => hmem
  · refine ⟨hholds.1, rfl, hlen, ?_⟩
    rw [hholds.2]
    exact .whole rfl
  · intro phase hphase
    cases hphase
    rfl
  · exact hinv.queue_nodup
  · exact hinv.queue_sleeping
  · exact hinv.awake co
  · exact hinv.ledger

/-- A package with padding is kept in the table of the coroutine. -/
theorem inv_padding
    (hinv : Inv s) {a : Answer} {packages : List (List UInt8)}
    {before : List (List UInt8)}
    (hpending : s.pending session = some (.answering a before))
    {items : List Item}
    (hreceiving : Receiving a packages (some (.table items))) :
    Inv { s with
      pending := update s.pending session
        (some (.answering a packages))
      channel := { s.channel with
        resultData := update s.channel.resultData a.co
          (some (.table items)) } } := by
  have hholds := hinv.holds session
  rw [hpending] at hholds
  obtain ⟨hwaiting, hsession, hlen, _⟩ := hholds
  apply hinv.update a.co
  · exact fun other phase hne hother => hinv.co_ne hpending hne hother
  · exact fun _ _ => rfl
  · exact fun _ _ => rfl
  · exact fun other hne => update_of_ne hne _ _
  · exact fun _ _ hmem => hmem
  · refine ⟨⟨hwaiting.lt, hwaiting.thread, hwaiting.sleeping,
      hwaiting.not_queued⟩, hsession, hlen, ?_⟩
    dsimp only
    rw [update_self]
    exact hreceiving
  · intro phase hphase
    cases hphase
    rfl
  · exact hinv.queue_nodup
  · exact hinv.queue_sleeping
  · intro hsleep
    rw [hwaiting.sleeping] at hsleep
    cases hsleep
  · refine Eq.trans ?_ hinv.ledger
    congr 1
    apply List.map_congr_left
    intro other hmem
    have hne : other ≠ a.co := fun heq => hwaiting.not_queued (heq ▸ hmem)
    rw [Channel.outcome, Channel.outcome]
    dsimp only
    rw [update_of_ne hne]

/-- With the last package the coroutine is woken. -/
theorem inv_end
    (hinv : Inv s) {a : Answer} {packages : List (List UInt8)}
    (hpending : s.pending session = some (.answering a packages))
    {data : Data} (hbytes : data.bytes =
      some (if a.ok then a.msg else a.msg.take multiPart)) :
    Inv { s with
      pending := update s.pending session none
      channel := { s.channel with
        thread := update s.channel.thread session none
        result := update s.channel.result a.co (some a.ok)
        resultData := update s.channel.resultData a.co (some data)
        wakeupQueue := s.channel.wakeupQueue ++ [a.co] }
      delivered := s.delivered ++ [a] } := by
  have hholds := hinv.holds session
  rw [hpending] at hholds
  obtain ⟨hwaiting, hsession, hlen, _⟩ := hholds
  apply hinv.update a.co
  · exact fun other phase hne hother => hinv.co_ne hpending hne hother
  · exact fun other hne => update_of_ne hne _ _
  · exact fun _ _ => rfl
  · exact fun other hne => update_of_ne hne _ _
  · intro other hne hmem
    rcases List.mem_append.mp hmem with hmem | hmem
    · exact hmem
    · exact absurd (List.mem_singleton.mp hmem) hne
  · exact update_self _ _ _
  · intro phase hphase
    cases hphase
  · exact List.nodup_append.mpr ⟨hinv.queue_nodup,
      List.nodup_singleton _, fun other hmem _ hlast heq =>
        hwaiting.not_queued
          (List.mem_singleton.mp hlast ▸ heq ▸ hmem)⟩
  · intro other hmem
    rcases List.mem_append.mp hmem with hmem | hmem
    · exact hinv.queue_sleeping other hmem
    · rw [List.mem_singleton.mp hmem]
      exact hwaiting.sleeping
  · intro hsleep
    rw [hwaiting.sleeping] at hsleep
    cases hsleep
  · have hold : s.channel.wakeupQueue.map
        (Channel.outcome { s.channel with
          thread := update s.channel.thread session none
          result := update s.channel.result a.co (some a.ok)
          resultData :=
            update s.channel.resultData a.co (some data)
          wakeupQueue := s.channel.wakeupQueue ++ [a.co] }) =
        s.channel.wakeupQueue.map s.channel.outcome := by
      apply List.map_congr_left
      intro other hmem
      have hne : other ≠ a.co := fun heq => hwaiting.not_queued (heq ▸ hmem)
      rw [Channel.outcome, Channel.outcome]
      dsimp only
      rw [update_of_ne hne, update_of_ne hne]
    dsimp only at hold ⊢
    rw [List.map_append, hold, ← List.append_assoc, hinv.ledger,
      List.map_append]
    congr 1
    rw [List.map_singleton, List.map_singleton, Channel.outcome,
      Answer.outcome]
    dsimp only
    rw [update_self, update_self, Option.bind_some, hbytes]

/-- The next coroutine goes on. -/
theorem inv_resume
    (hinv : Inv s) {co : ℕ} {queue : List ℕ}
    (hqueue : s.channel.wakeupQueue = co :: queue) :
    Inv { s with
      channel := Channel.finish { s.channel with wakeupQueue := queue } co
      returned := s.returned ++ [s.channel.outcome co] } := by
  have hnodup := hinv.queue_nodup
  rw [hqueue, List.nodup_cons] at hnodup
  have hother : ∀ other phase, s.pending other = some phase →
      phase.co ≠ co := by
    intro other phase hphase heq
    have hholds := hinv.holds other
    rw [hphase] at hholds
    apply hholds.waiting.not_queued
    rw [heq, hqueue]
    exact List.mem_cons_self
  constructor
  · intro other
    refine (hinv.holds other).congr rfl ?_
    intro phase hphase
    have hne := hother other phase hphase
    constructor
    · rfl
    · exact update_of_ne hne _ _
    · exact update_of_ne hne _ _
    · intro hmem
      rw [hqueue]
      exact List.mem_cons_of_mem _ hmem
  · exact hinv.distinct
  · exact hnodup.2
  · intro other hmem
    have hne : other ≠ co := fun heq => hnodup.1 (heq ▸ hmem)
    refine (update_of_ne hne _ _).trans ?_
    apply hinv.queue_sleeping
    rw [hqueue]
    exact List.mem_cons_of_mem _ hmem
  · intro other hsleep
    by_cases heq : other = co
    · subst heq
      exact update_self _ _ _
    · refine (update_of_ne heq _ _).trans ?_
      exact hinv.awake other
        ((update_of_ne heq _ _).symm.trans hsleep)
  · have hledger := hinv.ledger
    rw [hqueue, List.map_cons, List.append_cons] at hledger
    have hrest : queue.map (Channel.outcome
        (Channel.finish { s.channel with wakeupQueue := queue } co)) =
        queue.map s.channel.outcome := by
      apply List.map_congr_left
      intro other hmem
      have hne : other ≠ co := fun heq => hnodup.1 (heq ▸ hmem)
      rw [Channel.outcome, Channel.outcome, Channel.finish]
      dsimp only
      rw [update_of_ne hne, update_of_ne hne]
    exact (congrArg (s.returned ++ [s.channel.outcome co] ++ ·)
      hrest).trans hledger

/-! ## Steps -/

theorem read_spec
    (hinv : Inv s) {a : Answer} {package : List UInt8}
    {packages : List (List UInt8)}
    (hpending : s.pending session =
      some (.answering a (package :: packages))) :
    packages = [] ∧ Ends s.channel a package ∨
      packages ≠ [] ∧ Pads s.channel a package packages := by
  have hholds := hinv.holds session
  rw [hpending] at hholds
  obtain ⟨hwaiting, rfl, hlen, hreceiving⟩ := hholds
  generalize hdata : s.channel.resultData a.co = data at hreceiving
  cases hreceiving with
  | whole hpackages => exact read_whole hwaiting hlen hdata hpackages
  | parts done left hok hcut hne hpackages =>
      exact read_part hwaiting hlen hok hcut hpackages hdata

theorem step_read_last
    (hinv : Inv s) {a : Answer} {package : List UInt8}
    (hpending : s.pending session = some (.answering a [package])) :
    ∃ s', step s (.read session) = .next s' ∧ Inv s' ∧
      s'.delivered = s.delivered ++ [a] ∧
      s'.pending = update s.pending session none := by
  have hsession : a.session = session := by
    have hholds := hinv.holds session
    rw [hpending] at hholds
    exact hholds.2.1
  rcases read_spec hinv hpending with ⟨_, data, hbytes, hread⟩ | ⟨hne, _⟩
  · rw [hsession] at hread
    refine ⟨_, ?_, inv_end hinv hpending hbytes, rfl, rfl⟩
    simp only [step, hpending, hread, if_true]
  · exact absurd rfl hne

theorem step_read_part
    (hinv : Inv s) {a : Answer} {package : List UInt8}
    {packages : List (List UInt8)}
    (hpending : s.pending session =
      some (.answering a (package :: packages))) (hne : packages ≠ []) :
    ∃ s', step s (.read session) = .next s' ∧ Inv s' ∧
      s'.delivered = s.delivered ∧
      s'.pending = update s.pending session
        (some (.answering a packages)) := by
  rcases read_spec hinv hpending with ⟨heq, _⟩ | ⟨_, items, hparts, hread⟩
  · exact absurd heq hne
  · refine ⟨_, ?_, inv_padding hinv hpending hparts, rfl, rfl⟩
    simp only [step, hpending, hread, if_neg hne]

theorem step_resume
    (hinv : Inv s) {co : ℕ} {queue : List ℕ}
    (hqueue : s.channel.wakeupQueue = co :: queue) :
    ∃ s', step s .resume = .next s' ∧ Inv s' ∧
      s'.returned = s.returned ++ [s.channel.outcome co] ∧
      s'.delivered = s.delivered ∧ s'.channel.wakeupQueue = queue := by
  have hsleep : s.channel.sleeping co = true := by
    apply hinv.queue_sleeping
    rw [hqueue]
    exact List.mem_cons_self
  refine ⟨_, ?_, inv_resume hinv hqueue, rfl, rfl, rfl⟩
  simp only [step, hqueue, hsleep, if_true]
  rfl

/-- Every step keeps the invariant and does not fault. -/
theorem step_cases
    (hinv : Inv s) {l : Label} (hfresh : fresh s l) :
    step s l = .blocked ∨ ∃ s', step s l = .next s' ∧ Inv s' := by
  cases l with
  | request session co =>
      cases hsleep : s.channel.sleeping co with
      | true =>
          left
          simp only [step, hsleep, if_true]
      | false =>
          right
          refine ⟨_, ?_, inv_request hinv hfresh.1 hsleep⟩
          simp only [step, hsleep, Bool.false_eq_true, if_false]
  | respond session ok msg =>
      rcases hpending : s.pending session with _ | ⟨co | ⟨a, packages⟩⟩
      · left
        simp only [step, hpending]
      · right
        refine ⟨_, ?_, inv_respond hinv hpending ok hfresh⟩
        simp only [step, hpending]
      · left
        simp only [step, hpending]
  | read session =>
      rcases hpending : s.pending session with
        _ | ⟨co | ⟨a, _ | ⟨package, packages⟩⟩⟩
      · left
        simp only [step, hpending]
      · left
        simp only [step, hpending]
      · left
        simp only [step, hpending]
      · right
        by_cases hlast : packages = []
        · subst hlast
          obtain ⟨s', hstep, hkept, _⟩ := step_read_last hinv hpending
          exact ⟨s', hstep, hkept⟩
        · obtain ⟨s', hstep, hkept, _⟩ :=
            step_read_part hinv hpending hlast
          exact ⟨s', hstep, hkept⟩
  | resume =>
      cases hqueue : s.channel.wakeupQueue with
      | nil =>
          left
          simp only [step, hqueue]
      | cons co queue =>
          right
          obtain ⟨s', hstep, hkept, _⟩ := step_resume hinv hqueue
          exact ⟨s', hstep, hkept⟩

theorem reaches_inv (hrun : Reaches step fresh .init s) : Inv s := by
  apply hrun.invariant Inv inv_init
  intro s l s' hinv hfresh hstep
  rcases step_cases hinv hfresh with hblocked | ⟨t, ht, hkept⟩
  · cases hblocked.symm.trans hstep
  · cases ht.symm.trans hstep
    exact hkept

/-- The packages that are left complete the answer. -/
theorem exec_read
    {packages : List (List UInt8)} (hinv : Inv s) {a : Answer}
    (hpending : s.pending session = some (.answering a packages)) :
    ∃ s', exec step s (List.replicate packages.length (.read session)) =
        .next s' ∧
      s'.delivered = s.delivered ++ [a] ∧
      s'.pending = update s.pending session none := by
  induction packages generalizing s with
  | nil =>
      have hholds := hinv.holds session
      rw [hpending] at hholds
      obtain ⟨_, _, _, hreceiving⟩ := hholds
      generalize s.channel.resultData a.co = data at hreceiving
      cases hreceiving with
      | whole hpackages =>
          rw [packresponse] at hpackages
          split at hpackages
          · cases hpackages
          · cases hpackages
      | parts done left hok hcut hne hpackages =>
          exact absurd (List.map_eq_nil_iff.mp hpackages.symm) hne
  | cons package packages ih =>
      rw [List.length_cons, List.replicate_succ]
      by_cases hlast : packages = []
      · subst hlast
        obtain ⟨s', hstep, _, hdelivered, hnone⟩ :=
          step_read_last hinv hpending
        refine ⟨s', ?_, hdelivered, hnone⟩
        rw [exec_cons hstep]
        rfl
      · obtain ⟨t, hstep, hkept, hdelivered, hsome⟩ :=
          step_read_part hinv hpending hlast
        have hnext : t.pending session = some (.answering a packages) := by
          rw [hsome, update_self]
        obtain ⟨s', hexec, hdelivered', hnone⟩ := ih hkept hnext
        refine ⟨s', ?_, ?_, ?_⟩
        · rw [exec_cons hstep, hexec]
        · rw [hdelivered', hdelivered]
        · rw [hnone, hsome, update_idem]

/-- Every coroutine that was woken goes on. -/
theorem exec_resume
    {queue : List ℕ} (hinv : Inv s) (hqueue : s.channel.wakeupQueue = queue) :
    ∃ s', exec step s (List.replicate queue.length .resume) = .next s' ∧
      s'.returned = s.delivered.map Answer.outcome := by
  induction queue generalizing s with
  | nil =>
      have hledger := hinv.ledger
      rw [hqueue, List.map_nil, List.append_nil] at hledger
      exact ⟨s, rfl, hledger⟩
  | cons co queue ih =>
      obtain ⟨t, hstep, hkept, _, hdelivered, hrest⟩ :=
        step_resume hinv hqueue
      obtain ⟨s', hexec, hreturned⟩ := ih hkept hrest
      rw [List.length_cons, List.replicate_succ]
      refine ⟨s', ?_, ?_⟩
      · rw [exec_cons hstep, hexec]
      · rw [hreturned, hdelivered]

end Steps

/-! ## Responses arrive -/

/-- In every interleaving, the coroutines that went on did so once for each
answer whose last package was read, in that order, with its status and its
bytes; those woken are next.  No package is refused, every request can be
answered, and the packages of every answer can be read behind any packages of
the others. -/
theorem responses_delivered
    {s : State} (hrun : Reaches step fresh .init s) :
    s.returned <+: s.delivered.map Answer.outcome ∧
      (∃ s', exec step s
          (List.replicate s.channel.wakeupQueue.length .resume) = .next s' ∧
        s'.returned = s.delivered.map Answer.outcome) ∧
      (∀ l, fresh s l → ∀ failure, step s l ≠ .fault failure) ∧
      (∀ session co ok msg, s.pending session = some (.asked co) →
        (∀ package ∈ packresponse session ok msg, Framed package) ∧
        ∃ s', step s (.respond session ok msg) = .next s' ∧
          s'.pending = update s.pending session
            (some (.answering ⟨co, session, ok, msg⟩
              (packresponse session ok msg)))) ∧
      (∀ session a packages,
        s.pending session = some (.answering a packages) →
        ∃ s', exec step s (List.replicate packages.length (.read session)) =
            .next s' ∧
          s'.delivered = s.delivered ++ [a] ∧
          s'.pending = update s.pending session none) := by
  have hinv := reaches_inv hrun
  refine ⟨⟨_, hinv.ledger⟩, exec_resume hinv rfl, ?_, ?_, ?_⟩
  · intro l hfresh failure hfault
    rcases step_cases hinv hfresh with hblocked | ⟨t, ht, _⟩
    · cases hblocked.symm.trans hfault
    · cases ht.symm.trans hfault
  · intro session co ok msg hpending
    have hstep : step s (.respond session ok msg) = .next { s with
        pending := update s.pending session
          (some (.answering ⟨co, session, ok, msg⟩
            (packresponse session ok msg))) } := by
      simp only [step, hpending]
    exact ⟨framed_packresponse session ok msg, _, hstep, rfl⟩
  · intro session a packages hpending
    exact exec_read hinv hpending

/-- An error of one package passes a response that waits. -/
theorem error_passes_response :
    ∃ s : State, Reaches step fresh .init s ∧
      s.delivered = [⟨8, 2, false, [9]⟩] ∧
      s.pending 1 = some (.asked 7) ∧
      s.returned <+: [⟨8, some false, some [9]⟩] := by
  have hrun : Reaches step fresh .init _ := Reaches.refl
    |>.tail (.request 1 7) ⟨by decide, rfl⟩ rfl
    |>.tail (.request 2 8) ⟨by decide, rfl⟩ rfl
    |>.tail (.respond 2 false [9]) (by decide : 1 < 2 ^ 31) rfl
    |>.tail (.read 2) trivial rfl
  refine ⟨_, hrun, rfl, rfl, ?_⟩
  exact (responses_delivered hrun).1

end SkynetServer.Cluster.Session
