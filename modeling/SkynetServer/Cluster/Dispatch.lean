import SkynetServer.Cluster.Agent

/-!
# The agent dispatches what was sent

The parts of different requests may interleave in any order, as they are kept
apart by their sessions: at every point, the agent holds for each session the
parts of its request that were sent, and the requests dispatched are those
whose last package was sent.
-/

namespace SkynetServer.Cluster

open Transition

/-! ## Single packages at the agent -/

/-- What the agent dispatches for a request: the session is the one in its
last package. -/
def Request.dispatched (r : Request) : Dispatched where
  addr := some r.addr
  session := if r.isPush ∧ r.msg.length < multiPart then 0 else r.session
  msg := r.msg
  isPush := r.isPush

section Packages

variable {a : Agent} {r : Request} {packed : Packed}

theorem receive_single
    (hpacked : r.PackedAs packed) (hshort : r.msg.length < multiPart)
    (hfree : a.largeRequest (if r.isPush then 0 else r.session) = none) :
    a.receive packed.request =
      .ok { a with dispatched := a.dispatched ++ [r.dispatched] } := by
  have hsession : (if r.isPush ∧ r.msg.length < multiPart then 0
      else r.session) = if r.isPush then 0 else r.session := by
    simp only [hshort, and_true]
  rw [Agent.receive, hpacked.unpacked, Request.unpacked, if_pos hshort]
  simp only [Except.map, Agent.dispatchRequest, hfree, Request.dispatched,
    hsession]
  rfl

theorem receive_main
    (hpacked : r.PackedAs packed) (hlong : ¬ r.msg.length < multiPart)
    (hfree : a.largeRequest r.session = none) :
    a.receive packed.request =
      .ok { a with
        largeRequest := Function.update a.largeRequest r.session
          (some ⟨some r.addr, r.isPush, [.size r.msg.length]⟩) } := by
  rw [Agent.receive, hpacked.unpacked, Request.unpacked, if_neg hlong]
  simp only [Except.map, Agent.dispatchRequest, hfree, if_pos,
    Option.getD_none, append, List.nil_append]

variable {session : ℕ} {part : Bool × List UInt8} {req : LargeRequest}

theorem unpack_packPart
    (hsession : session < 2 ^ 31) :
    unpackrequest ((packPart session part).drop 2) =
      .ok (.request none session (some part.2) part.2.length part.1
        false) :=
  unpackmreqPart_eq (by omega) part

theorem receive_part
    (hsession : session < 2 ^ 31) (hmore : part.1 = true)
    (hreq : a.largeRequest session = some req) :
    a.receive (packPart session part) =
      .ok { a with
        largeRequest := Function.update a.largeRequest session
          (some { req with items := req.items ++ [.msg part.2] }) } := by
  rw [Agent.receive, unpack_packPart hsession]
  simp only [Except.map, Agent.dispatchRequest, hmore, hreq, if_pos,
    Option.getD_some, append]

theorem receive_last
    (hsession : session < 2 ^ 31) (hlast : part.1 = false)
    (hreq : a.largeRequest session = some req) {msg : List UInt8}
    (hconcat : concat (req.items ++ [.msg part.2]) = some msg) :
    a.receive (packPart session part) =
      .ok { a with
        largeRequest := Function.update a.largeRequest session none
        dispatched :=
          a.dispatched ++ [⟨req.addr, session, msg, req.isPush⟩] } := by
  rw [Agent.receive, unpack_packPart hsession]
  simp only [Except.map, Agent.dispatchRequest, hlast, hreq, append, hconcat,
    Bool.false_eq_true, if_false]

end Packages

/-! ## The invariant -/

/-- The agent holds the main package and the parts that were sent, and the
others are to be sent. -/
structure Sending
    (a : Agent) (session : ℕ) (r : Request)
    (done left : List (Bool × List UInt8)) : Prop where
  session_eq : session = r.session
  pos : 1 ≤ session
  lt : session < 2 ^ 31
  length_lt : r.msg.length < 2 ^ 31
  long : ¬ r.msg.length < multiPart
  cut : Parts.Cut multiPart r.msg (done ++ left)
  left_ne_nil : left ≠ []
  held : a.largeRequest session =
    some ⟨some r.addr, r.isPush,
      .size r.msg.length :: done.map fun p => .msg p.2⟩

structure Inv (s : State) : Prop where
  free : ∀ session,
    s.pending session = none → s.agent.largeRequest session = none
  sending : ∀ session r parts, s.pending session = some (r, parts) →
    ∃ done left, parts = left.map (packPart session) ∧
      Sending s.agent session r done left
  dispatched : s.agent.dispatched = s.sent.map Request.dispatched
  valid : s.agent.invalid = []

theorem inv_init : Inv .init where
  free := fun _ _ => rfl
  sending := fun _ _ _ h => (by cases h)
  dispatched := rfl
  valid := rfl

/-- What the agent holds of a request depends on nothing else. -/
theorem Sending.congr
    {a a' : Agent} {session : ℕ} {r : Request}
    {done left : List (Bool × List UInt8)} (h : Sending a session r done left)
    (hheld : a'.largeRequest session = a.largeRequest session) :
    Sending a' session r done left :=
  { h with held := hheld.trans h.held }

section Steps

variable {s : State} {r : Request}

theorem Inv.pending_zero (hinv : Inv s) : s.pending 0 = none := by
  cases hpending : s.pending 0 with
  | none => rfl
  | some p =>
      obtain ⟨_, _, _, hsending⟩ := hinv.sending 0 p.1 p.2 hpending
      exact absurd hsending.pos (by omega)

/-- The entry of a session of the table, and of the agent, is replaced. -/
theorem Inv.update
    (hinv : Inv s) {session : ℕ} {agent : Agent}
    {entry : Option (Request × List (List UInt8))} {sent : List Request}
    {req : Option LargeRequest}
    (hlarge : agent.largeRequest =
      Function.update s.agent.largeRequest session req)
    (hfree : entry = none → req = none)
    (hsending : ∀ r parts, entry = some (r, parts) →
      ∃ done left, parts = left.map (packPart session) ∧
        Sending agent session r done left)
    (hdispatched : agent.dispatched = sent.map Request.dispatched)
    (hvalid : agent.invalid = []) :
    Inv ⟨Function.update s.pending session entry, agent, sent⟩ where
  free other hother := by
    dsimp only at hother ⊢
    rw [hlarge]
    by_cases heq : other = session
    · subst heq
      rw [Function.update_self] at hother ⊢
      exact hfree hother
    · rw [Function.update_of_ne heq] at hother ⊢
      exact hinv.free other hother
  sending other r parts hother := by
    dsimp only at hother ⊢
    by_cases heq : other = session
    · subst heq
      rw [Function.update_self] at hother
      exact hsending r parts hother
    · rw [Function.update_of_ne heq] at hother
      obtain ⟨done, left, hparts, hold⟩ := hinv.sending other r parts hother
      refine ⟨done, left, hparts, hold.congr ?_⟩
      rw [hlarge, Function.update_of_ne heq]
  dispatched := hdispatched
  valid := hvalid

/-- A short request is dispatched at once. -/
theorem step_single
    (hinv : Inv s) (hfresh : fresh s (.request r)) {packed : Packed}
    (hpack : r.pack = .ok packed) (hshort : r.msg.length < multiPart) :
    ∃ s', step s (.request r) = .next s' ∧ Inv s' ∧
      s'.sent = s.sent ++ [r] ∧ s'.pending = s.pending := by
  obtain ⟨hsession, hlen, hown⟩ := hfresh
  have hpacked := pack_spec hpack hsession hlen
  have hparts : packed.parts = [] := hpacked.parts.trans (if_pos hshort)
  have hfree :
      s.agent.largeRequest (if r.isPush then 0 else r.session) = none := by
    cases hpush : r.isPush with
    | true => exact hinv.free 0 hinv.pending_zero
    | false => exact hinv.free r.session (hown (.inl hpush))
  have hreceive := receive_single hpacked hshort hfree
  have hstep : step s (.request r) = .next { s with
      agent := { s.agent with
        dispatched := s.agent.dispatched ++ [r.dispatched] }
      sent := s.sent ++ [r] } := by
    simp only [step, hpack, hreceive, if_pos hparts]
  refine ⟨_, hstep, ?_, rfl, rfl⟩
  constructor
  · exact hinv.free
  · intro session r' parts hpending
    obtain ⟨done, left, hleft, hold⟩ :=
      hinv.sending session r' parts hpending
    exact ⟨done, left, hleft, hold.congr rfl⟩
  · rw [List.map_append, hinv.dispatched]
    rfl
  · exact hinv.valid

/-- A long request waits for its parts. -/
theorem step_main
    (hinv : Inv s) (hfresh : fresh s (.request r)) {packed : Packed}
    (hpack : r.pack = .ok packed) (hlong : ¬ r.msg.length < multiPart) :
    ∃ s', step s (.request r) = .next s' ∧ Inv s' ∧ s'.sent = s.sent ∧
      s'.pending =
        Function.update s.pending r.session (some (r, packed.parts)) := by
  obtain ⟨hsession, hlen, hown⟩ := hfresh
  have hpacked := pack_spec hpack hsession hlen
  have hfree : s.agent.largeRequest r.session = none :=
    hinv.free r.session (hown (.inr (Nat.le_of_not_lt hlong)))
  have hne : r.msg ≠ [] := by
    intro h
    rw [h] at hlong
    exact hlong (by decide)
  have hcut := Parts.cut_spec multiPart_pos hne
  have hparts : packed.parts =
      (Parts.cut multiPart (Parts.count multiPart r.msg.length)
        r.msg).map (packPart r.session) :=
    hpacked.parts.trans (if_neg hlong)
  have hsome : packed.parts ≠ [] := by
    rw [hparts]
    exact mt List.map_eq_nil_iff.mp hcut.ne_nil
  have hreceive := receive_main hpacked hlong hfree
  have hstep : step s (.request r) = .next { s with
      agent := { s.agent with
        largeRequest := Function.update s.agent.largeRequest r.session
          (some ⟨some r.addr, r.isPush, [.size r.msg.length]⟩) }
      pending := Function.update s.pending r.session
        (some (r, packed.parts)) } := by
    simp only [step, hpack, hreceive, if_neg hsome]
  refine ⟨_, hstep, ?_, rfl, rfl⟩
  apply hinv.update rfl
  · intro h
    cases h
  · intro r' parts' h
    cases h
    refine ⟨[], _, hparts, ?_⟩
    constructor
    · rfl
    · exact hpacked.pos
    · exact hsession
    · exact hlen
    · exact hlong
    · exact hcut
    · exact hcut.ne_nil
    · exact Function.update_self _ _ _
  · exact hinv.dispatched
  · exact hinv.valid

variable {session : ℕ} {part : List UInt8} {parts : List (List UInt8)}

/-- A part but the last is kept. -/
theorem step_part
    (hinv : Inv s) (hpending : s.pending session = some (r, part :: parts))
    (hparts : parts ≠ []) :
    ∃ s', step s (.part session) = .next s' ∧ Inv s' ∧ s'.sent = s.sent ∧
      s'.pending = Function.update s.pending session (some (r, parts)) := by
  obtain ⟨done, left, hleft, hold⟩ := hinv.sending session r _ hpending
  obtain _ | ⟨p, left⟩ := left
  · cases hleft
  rw [List.map_cons, List.cons.injEq] at hleft
  obtain ⟨rfl, rfl⟩ := hleft
  have hne : left ≠ [] := mt List.map_eq_nil_iff.mpr hparts
  have hmore : p.1 = true := hold.cut.marked_iff.mpr hne
  have hreceive := receive_part hold.lt hmore hold.held
  have hstep : step s (.part session) = .next { s with
      agent := { s.agent with
        largeRequest := Function.update s.agent.largeRequest session
          (some ⟨some r.addr, r.isPush,
            (.size r.msg.length :: done.map fun p => .msg p.2) ++
              [.msg p.2]⟩) }
      pending := Function.update s.pending session
        (some (r, left.map (packPart session))) } := by
    simp only [step, hpending, hreceive, if_neg hparts]
  refine ⟨_, hstep, ?_, rfl, rfl⟩
  apply hinv.update rfl
  · intro h
    cases h
  · intro r' parts' h
    cases h
    refine ⟨done ++ [p], left, rfl, ?_⟩
    have hcut := hold.cut
    rw [List.append_cons] at hcut
    constructor
    · exact hold.session_eq
    · exact hold.pos
    · exact hold.lt
    · exact hold.length_lt
    · exact hold.long
    · exact hcut
    · exact hne
    · rw [List.map_append]
      exact Function.update_self _ _ _
  · exact hinv.dispatched
  · exact hinv.valid

/-- With its last part, the request is dispatched. -/
theorem step_last
    (hinv : Inv s) (hpending : s.pending session = some (r, [part])) :
    ∃ s', step s (.part session) = .next s' ∧ Inv s' ∧
      s'.sent = s.sent ++ [r] ∧
      s'.pending = Function.update s.pending session none := by
  obtain ⟨done, left, hleft, hold⟩ := hinv.sending session r _ hpending
  obtain _ | ⟨p, left⟩ := left
  · cases hleft
  rw [List.map_cons, List.cons.injEq] at hleft
  obtain ⟨rfl, hnil⟩ := hleft
  obtain rfl := List.map_eq_nil_iff.mp hnil.symm
  have hlast : p.1 = false := by
    rw [← Bool.not_eq_true, hold.cut.marked_iff]
    exact not_not.mpr rfl
  have hconcat := concat_cut hold.cut hold.length_lt
  rw [List.map_append] at hconcat
  have hreceive := receive_last hold.lt hlast hold.held hconcat
  have hdispatched : r.dispatched =
      ⟨some r.addr, session, r.msg, r.isPush⟩ := by
    rw [Request.dispatched, if_neg (fun h => hold.long h.2),
      hold.session_eq]
  have hstep : step s (.part session) = .next
      { agent := { s.agent with
          largeRequest := Function.update s.agent.largeRequest session none
          dispatched := s.agent.dispatched ++
            [⟨some r.addr, session, r.msg, r.isPush⟩] }
        sent := s.sent ++ [r]
        pending := Function.update s.pending session none } := by
    simp only [step, hpending, hreceive, if_pos]
  refine ⟨_, hstep, ?_, rfl, rfl⟩
  apply hinv.update rfl
  · exact fun _ => rfl
  · intro r' parts' h
    cases h
  · rw [List.map_append, hinv.dispatched, List.map_singleton, hdispatched]
  · exact hinv.valid

theorem inv_step
    {l : Label} {s' : State} (hinv : Inv s) (hfresh : fresh s l)
    (hstep : step s l = .next s') : Inv s' := by
  cases l with
  | request r =>
      cases hpack : r.pack with
      | error failure =>
          rw [step, hpack] at hstep
          cases hstep
      | ok packed =>
          by_cases hshort : r.msg.length < multiPart
          · obtain ⟨t, ht, hkept, _⟩ :=
              step_single hinv hfresh hpack hshort
            cases ht.symm.trans hstep
            exact hkept
          · obtain ⟨t, ht, hkept, _⟩ := step_main hinv hfresh hpack hshort
            cases ht.symm.trans hstep
            exact hkept
  | part session =>
      cases hpending : s.pending session with
      | none =>
          rw [step, hpending] at hstep
          cases hstep
      | some entry =>
          obtain ⟨r, _ | ⟨part, parts⟩⟩ := entry
          · rw [step, hpending] at hstep
            cases hstep
          · by_cases hparts : parts = []
            · subst hparts
              obtain ⟨t, ht, hkept, _⟩ := step_last hinv hpending
              cases ht.symm.trans hstep
              exact hkept
            · obtain ⟨t, ht, hkept, _⟩ := step_part hinv hpending hparts
              cases ht.symm.trans hstep
              exact hkept

/-- The agent can read every package that is sent. -/
theorem step_ne_fault
    {l : Label} (hinv : Inv s) (hfresh : fresh s l) (failure : Failure) :
    step s l ≠ .fault failure := by
  intro hfault
  cases l with
  | request r =>
      cases hpack : r.pack with
      | error failure =>
          rw [step, hpack] at hfault
          cases hfault
      | ok packed =>
          by_cases hshort : r.msg.length < multiPart
          · obtain ⟨t, ht, _⟩ := step_single hinv hfresh hpack hshort
            cases ht.symm.trans hfault
          · obtain ⟨t, ht, _⟩ := step_main hinv hfresh hpack hshort
            cases ht.symm.trans hfault
  | part session =>
      cases hpending : s.pending session with
      | none =>
          rw [step, hpending] at hfault
          cases hfault
      | some entry =>
          obtain ⟨r, _ | ⟨part, parts⟩⟩ := entry
          · rw [step, hpending] at hfault
            cases hfault
          · by_cases hparts : parts = []
            · subst hparts
              obtain ⟨t, ht, _⟩ := step_last hinv hpending
              cases ht.symm.trans hfault
            · obtain ⟨t, ht, _⟩ := step_part hinv hpending hparts
              cases ht.symm.trans hfault

/-- The parts that are left complete the request. -/
theorem exec_parts
    {parts : List (List UInt8)} (hinv : Inv s) {session : ℕ}
    (hpending : s.pending session = some (r, parts)) :
    ∃ s', exec step s (List.replicate parts.length (.part session)) =
        .next s' ∧
      s'.sent = s.sent ++ [r] ∧
      s'.pending = Function.update s.pending session none := by
  induction parts generalizing s with
  | nil =>
      obtain ⟨done, left, hleft, hold⟩ := hinv.sending session r _ hpending
      exact absurd (List.map_eq_nil_iff.mp hleft.symm) hold.left_ne_nil
  | cons part parts ih =>
      rw [List.length_cons, List.replicate_succ]
      by_cases hparts : parts = []
      · subst hparts
        obtain ⟨t, ht, _, hsent, hnone⟩ := step_last hinv hpending
        refine ⟨t, ?_, hsent, hnone⟩
        rw [exec_cons ht]
        rfl
      · obtain ⟨t, ht, hkept, hsent, hsome⟩ :=
          step_part hinv hpending hparts
        have hnext : t.pending session = some (r, parts) := by
          rw [hsome, Function.update_self]
        obtain ⟨s', hexec, hsent', hnone⟩ := ih hkept hnext
        refine ⟨s', ?_, ?_, ?_⟩
        · rw [exec_cons ht, hexec]
        · rw [hsent', hsent]
        · rw [hnone, hsome, Function.update_idem]

theorem reaches_inv (hrun : Reaches step fresh .init s) : Inv s :=
  hrun.invariant Inv inv_init fun _ _ _ hinv hfresh hstep =>
    inv_step hinv hfresh hstep

end Steps

/-! ## Requests arrive -/

theorem framed_parts
    {packed : Packed} {r : Request} (hpacked : r.PackedAs packed) :
    ∀ package ∈ packed.request :: packed.parts, Framed package := by
  refine List.forall_mem_cons.mpr ⟨hpacked.framed, ?_⟩
  rw [hpacked.parts]
  by_cases hshort : r.msg.length < multiPart
  · rw [if_pos hshort]
    exact List.forall_mem_nil _
  · rw [if_neg hshort]
    have hne : r.msg ≠ [] := by
      intro h
      rw [h] at hshort
      exact hshort (by decide)
    have hle :=
      (Parts.cut_spec multiPart_pos hne).length_le
    intro package hmem
    obtain ⟨part, hpart, rfl⟩ := List.mem_map.mp hmem
    have hpartLen : part.2.length ≤ multiPart := hle part hpart
    unfold multiPart at hpartLen
    rw [packPart, List.append_assoc, List.append_assoc]
    apply framed_fillHeader
    · simp only [List.length_append, length_fillUint32,
        List.length_singleton]
      omega
    · omega

/-- In every interleaving, the agent dispatches exactly the requests whose
last package was sent, each with its address, its session or push flag and its
payload, and no package is refused.  Every valid request can be sent, behind
any packages of the others, and so can the parts of every request that
waits. -/
theorem requests_dispatched
    {s : State} (hrun : Reaches step fresh .init s) :
    s.agent.dispatched = s.sent.map Request.dispatched ∧
      s.agent.invalid = [] ∧
      (∀ l, fresh s l → ∀ failure, step s l ≠ .fault failure) ∧
      (∀ r, fresh s (.request r) → 1 ≤ r.session → r.addr.Valid →
        ∃ packed s', r.pack = .ok packed ∧
          (∀ package ∈ packed.request :: packed.parts, Framed package) ∧
          1 ≤ packed.session ∧ packed.session ≤ 2 ^ 31 - 1 ∧
          step s (.request r) = .next s' ∧
          (r.msg.length < multiPart →
            s'.sent = s.sent ++ [r] ∧ s'.pending = s.pending) ∧
          (multiPart ≤ r.msg.length →
            s'.sent = s.sent ∧ s'.pending = Function.update s.pending
              r.session (some (r, packed.parts)))) ∧
      (∀ session r parts, s.pending session = some (r, parts) →
        ∃ s', exec step s (List.replicate parts.length (.part session)) =
            .next s' ∧
          s'.sent = s.sent ++ [r] ∧
          s'.pending = Function.update s.pending session none) := by
  have hinv := reaches_inv hrun
  refine ⟨hinv.dispatched, hinv.valid, ?_, ?_, ?_⟩
  · intro l hfresh failure
    exact step_ne_fault hinv hfresh failure
  · intro r hfresh hpos haddr
    obtain ⟨packed, hpack⟩ := pack_valid hpos haddr
    have hpacked := pack_spec hpack hfresh.1 hfresh.2.1
    have hframed := framed_parts hpacked
    by_cases hshort : r.msg.length < multiPart
    · obtain ⟨s', hstep, _, hsent⟩ := step_single hinv hfresh hpack hshort
      exact ⟨packed, s', hpack, hframed, hpacked.next_pos, hpacked.next_le,
        hstep, fun _ => hsent,
        fun h => absurd hshort (Nat.not_lt.mpr h)⟩
    · obtain ⟨s', hstep, _, hsent⟩ := step_main hinv hfresh hpack hshort
      exact ⟨packed, s', hpack, hframed, hpacked.next_pos, hpacked.next_le,
        hstep, fun h => absurd h hshort, fun _ => hsent⟩
  · intro session r parts hpending
    exact exec_parts hinv hpending

/-- A push of two bytes passes a call of one part. -/
theorem push_passes_call :
    ∃ s s' : State, ∃ n : ℕ, Reaches step fresh .init s ∧
      s.agent.dispatched = [⟨some (.name [64, 97]), 0, [1, 2], true⟩] ∧
      exec step s (List.replicate n (.part 1)) = .next s' ∧
      s'.sent = [⟨.name [64, 97], 2, [1, 2], true⟩,
        ⟨.handle 7, 1, List.replicate 0x8000 5, false⟩] := by
  obtain ⟨call, hcall⟩ : ∃ call : Request,
    call = ⟨.handle 7, 1, List.replicate 0x8000 5, false⟩ := ⟨_, rfl⟩
  obtain ⟨push, hpush⟩ : ∃ push : Request,
    push = ⟨.name [64, 97], 2, [1, 2], true⟩ := ⟨_, rfl⟩
  rw [← hcall, ← hpush]
  have hlen : call.msg.length = 0x8000 := by
    rw [hcall, List.length_replicate]
  have hsession : call.session = 1 := by rw [hcall]
  have hfresh : fresh .init (.request call) := by
    refine ⟨?_, ?_, fun _ => rfl⟩
    · rw [hcall]
      decide
    · rw [hlen]
      decide
  obtain ⟨packed, s₁, _, _, _, _, hstep, _, hlong⟩ :=
    (requests_dispatched .refl).2.2.2.1 call hfresh
      (Nat.le_of_eq hsession.symm)
      (by rw [hcall]; trivial)
  obtain ⟨hsent₁, hpending₁⟩ := hlong (by rw [hlen]; decide)
  have hrun₁ := Reaches.refl.tail _ hfresh hstep
  have hfree : s₁.pending push.session = none := by
    rw [hpending₁, hpush, hcall, Function.update_of_ne (by decide)]
    rfl
  have hshort : push.msg.length < multiPart := by
    rw [hpush]
    decide
  have hfresh₁ : fresh s₁ (.request push) := by
    refine ⟨?_, ?_, fun _ => hfree⟩
    · rw [hpush]
      decide
    · rw [hpush]
      decide
  obtain ⟨_, s₂, _, _, _, _, hstep₂, hdone, _⟩ :=
    (requests_dispatched hrun₁).2.2.2.1 push hfresh₁ (by rw [hpush]; exact Nat.le_succ 1)
      (by rw [hpush]; exact ⟨by decide, by decide⟩)
  obtain ⟨hsent₂, hpending₂⟩ := hdone hshort
  have hrun₂ := hrun₁.tail _ hfresh₁ hstep₂
  have hsent : s₂.sent = [push] := by
    rw [hsent₂, hsent₁]
    rfl
  have hpending : s₂.pending 1 = some (call, packed.parts) := by
    rw [hpending₂, hpending₁, hcall, Function.update_self]
  obtain ⟨s₃, hexec, hsent₃, _⟩ :=
    (requests_dispatched hrun₂).2.2.2.2 1 call _ hpending
  refine ⟨s₂, s₃, _, hrun₂, ?_, hexec, ?_⟩
  · rw [(requests_dispatched hrun₂).1, hsent, hpush]
    rfl
  · rw [hsent₃, hsent]
    rfl

end SkynetServer.Cluster
