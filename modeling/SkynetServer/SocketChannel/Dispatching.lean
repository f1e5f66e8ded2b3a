import SkynetServer.SocketChannel.Connection

/-!
# The dispatch coroutine of a connection

Every piece of it keeps the invariant.  Between two pieces, at the test of its
loop, it is taken as one that has not started.
-/

namespace SkynetServer.SocketChannel

open Transition

section Steps

variable {φ α : Type*} {s s' : System φ α} {conn : ℕ} {turn : Turn φ}
  {given : Given α}

/-! ## The place of the dispatch coroutine does not matter -/

theorem wakeup_dispatch (co : ℕ) (d : Option (Dispatch φ α)) :
    System.wakeup { s with dispatch := d } (.thread co) =
      { s.wakeup (.thread co) with dispatch := d } := by
  have hasleep : System.asleep { s with dispatch := d } (.thread co) =
      s.asleep (.thread co) := rfl
  rw [System.wakeup, System.wakeup, hasleep]
  split
  · rfl
  · rfl

theorem give_dispatch (d : Option (Dispatch φ α)) :
    System.give { s with dispatch := d } turn given =
      { s.give turn given with dispatch := d } :=
  wakeup_dispatch (s := { s with
    result := Function.update s.result turn.co (some given.result)
    resultData := Function.update s.resultData turn.co given.data
    woken := s.woken ++ [(turn, given)] }) turn.co d

theorem wakeupAll_dispatch
    (message : Option (Message α)) (items : List (Item φ))
    (d : Option (Dispatch φ α)) :
    System.wakeupAll message items { s with dispatch := d } =
      { System.wakeupAll message items s with dispatch := d } := by
  induction items generalizing s with
  | nil => rfl
  | cons item items ih =>
      cases item with
      | signal c => exact ih (s := { s with items := items })
      | response turn =>
          rw [System.wakeupAll, System.wakeupAll, ← ih]
          exact congrArg (System.wakeupAll message items)
            (give_dispatch (s := { s with items := items }) d)

theorem popResponse_dispatch (d : Option (Dispatch φ α)) :
    System.popResponse { s with dispatch := d } conn = s.popResponse conn := by
  rw [System.popResponse, System.popResponse]
  dsimp only
  split
  · rfl
  · rename_i items _
    have hall := wakeupAll_dispatch (s := { s with items := items })
      (some .channelClosed) items d
    exact (congrArg System.endDispatch hall).trans rfl
  · rfl
theorem dispatchByOrder_dispatch (d : Option (Dispatch φ α)) :
    System.dispatchByOrder { s with dispatch := d } conn =
      s.dispatchByOrder conn := by
  rw [System.dispatchByOrder, System.dispatchByOrder]
  dsimp only
  split
  · exact popResponse_dispatch d
  · rfl

/-! ## `wakeup_all` and the end -/

variable {queue : List Token}

theorem Links.wakeAll
    (h : Links s) (hsock : s.sock = none ∨ s.items = [])
    (hqueue : ∀ c, .dispatch c ∈ queue ↔ .dispatch c ∈ s.wakeupQueue)
    (result : ℕ → Option Result) (resultData : ℕ → Option (Data α))
    (woken : List (Turn φ × Given α)) :
    Links { s with
      items := []
      result := result
      resultData := resultData
      wakeupQueue := queue
      woken := woken } :=
  { h with
    order := by
      intro k hk
      rcases hsock with hnone | hnil
      · cases hnone.symm.trans hk
      · rw [h.order k hk, System.current, System.current, hnil]
    items_conn := fun _ _ _ hi => (by cases hi)
    left := fun _ _ hi => (by cases hi)
    signal := fun _ hi => (by cases hi)
    waiting := by
      intro c hc
      obtain ⟨hd, _, hnot⟩ := h.waiting c hc
      exact ⟨hd, rfl, fun hmem => hnot ((hqueue c).mp hmem)⟩
    popping := fun c hc => (h.popping c hc).imp_right (hqueue c).mpr
    token := fun c hc => h.token c ((hqueue c).mp hc) }

/-- All waits that are queued end with an error. -/
theorem Inv.wakeupAll
    (h : Inv s) (message : Option (Message α))
    (hsock : s.sock = none ∨ s.items = []) :
    Inv (System.wakeupAll message s.items s) := by
  obtain ⟨result, resultData, queue, woken, heq, hqueue, hwaits⟩ :=
    wakeupAll_eq message s.items h.waits
  have hcurrent : (System.wakeupAll message s.items s).current =
      inflight s.dispatch := by
    rw [heq, System.current]
    exact List.append_nil _
  refine ⟨?_, hcurrent ▸ hwaits⟩
  rw [heq]
  exact h.links.wakeAll hsock hqueue _ _ _

theorem Inv.endDispatch
    (h : Inv s) (hd : s.dispatch = some ⟨conn, .forked⟩) (hsock : s.sock = none)
    (hleft : ∀ i ∈ s.items, ∃ co, s.pc co = .failing i.conn) :
    Inv s.endDispatch where
  links :=
    have hne {c : ℕ} : s.dispatch ≠ some ⟨c, .popping⟩ := by
      rw [hd]
      exact fun h => (by cases h)
    { h.links with
      sock_dispatch := fun _ hk => (by cases hsock.symm.trans hk)
      order := fun _ hk => (by cases hsock.symm.trans hk)
      items_conn := fun _ hd => (by cases hd)
      turns_conn := fun _ hd => (by cases hd)
      left := fun _ => hleft
      reading := fun _ _ _ _ hd => (by cases hd)
      closing := fun _ _ _ hd => (by cases hd)
      waiting := fun c hc => absurd (h.links.waiting c hc).1 hne
      popping := fun _ hd => (by cases hd)
      token := fun c hc => absurd (h.links.token c hc) hne
      dispatch_opened := fun _ hd => (by cases hd) }
  waits := by
    have hcurrent : s.current = turns s.items := by
      rw [System.current, hd]
      rfl
    have hwaits := h.waits
    rw [hcurrent] at hwaits
    exact { hwaits with }

/-! ## The place of the dispatch coroutine -/

variable {phase : Phase φ α}

theorem Links.not_popping
    (h : Links s) (hd : s.dispatch = some ⟨conn, phase⟩)
    (hne : phase ≠ .popping) :
    s.waitResponse = none ∧ ∀ c, .dispatch c ∉ s.wakeupQueue := by
  have hdispatch {c : ℕ} : s.dispatch ≠ some ⟨c, .popping⟩ := by
    rw [hd]
    intro heq
    cases heq
    exact hne rfl
  constructor
  · by_contra hsome
    obtain ⟨c, hc⟩ := Option.ne_none_iff_exists'.mp hsome
    exact hdispatch (h.waiting c hc).1
  · exact fun c hc => hdispatch (h.token c hc)

/-- The connection of the socket is the one of the dispatch coroutine. -/
theorem Links.sock_conn
    (h : Links s) (hd : s.dispatch = some ⟨conn, phase⟩)
    {k : Sock} (hk : s.sock = some k) : k.conn = conn := by
  obtain ⟨phase', hphase⟩ := h.sock_dispatch k hk
  cases hd.symm.trans hphase
  rfl

/-- The dispatch coroutine goes to a place other than `pop_response`; entries
are taken, and a response is read. -/
theorem Links.setDispatch
    (h : Links s)
    (hd : s.dispatch = some ⟨conn, phase⟩) (phase' : Phase φ α)
    {items : List (Item φ)} (read : ℕ → List (Turn φ × Given α)) (hwait : s.waitResponse = none)
    (htoken : ∀ c, .dispatch c ∉ queue)
    (hne : phase' ≠ .popping) (hitems : ∀ i ∈ items, i ∈ s.items)
    (hturns : ∀ t ∈ phase'.turns, t.conn = conn)
    (hreading : ∀ t sock parts, phase' = .reading t sock parts →
      sock = some conn ∨ sock = none ∧ s.sock = none)
    (hclosing : ∀ t error, phase' = .closing t error → s.sock = none)
    (horder : ∀ k, s.sock = some k → s.pushed conn =
      (read conn).map Prod.fst ++ (phase'.turns ++ turns items))
    (hgrown : ∀ c, (read c).map Prod.fst <+: s.pushed c) :
    Links { s with
      dispatch := some ⟨conn, phase'⟩
      items := items
      wakeupQueue := queue
      read := read } :=
  { h with
    sock_dispatch := by
      intro k hk
      rw [h.sock_conn hd hk]
      exact ⟨_, rfl⟩
    order := by
      intro k hk
      rw [h.sock_conn hd hk]
      exact horder k hk
    read_pushed := hgrown
    items_conn := by
      intro d hd' i hi
      cases hd'
      exact h.items_conn _ hd i (hitems i hi)
    turns_conn := by
      intro d hd' t ht
      cases hd'
      exact hturns t ht
    left := fun hd => (by cases hd)
    signal := fun c hc => h.signal c (hitems _ hc)
    reading := by
      intro c t sock parts hd'
      cases hd'
      exact hreading t sock parts rfl
    closing := by
      intro c t error hd'
      cases hd'
      exact hclosing t error rfl
    waiting := fun c hc => (by cases hwait.symm.trans hc)
    popping := by
      intro c hd'
      cases hd'
      exact absurd rfl hne
    token := fun c hc => absurd hc (htoken c)
    dispatch_opened := by
      intro d hd'
      cases hd'
      exact (h.dispatch_opened _ hd : conn < s.opened) }

/-! ## `pop_response` -/

theorem later_wakeupAll
    {current : List (Turn φ)} (h : Waits s (current ++ turns s.items))
    (message : Option (Message α)) :
    Later s (System.wakeupAll message s.items s) := by
  obtain ⟨_, _, _, _, heq, _, _⟩ := wakeupAll_eq message s.items h
  rw [heq]
  exact .of_eq rfl rfl rfl rfl

/-- The dispatch coroutine of the connection is at the test of its loop. -/
theorem Inv.popResponse
    (h : Inv s) (hd : s.dispatch = some ⟨conn, .forked⟩) :
    Inv (s.popResponse conn) ∧ Later s (s.popResponse conn) := by
  have hne {c : ℕ} : s.dispatch ≠ some ⟨c, .popping⟩ := by
    rw [hd]
    exact fun h => (by cases h)
  have hcurrent : s.current = turns s.items := by
    rw [System.current, hd]
    rfl
  have hwaits := h.waits
  rw [hcurrent] at hwaits
  rw [System.popResponse]
  split
  · rename_i hitems
    refine ⟨⟨?_, { hwaits with }⟩, .of_eq rfl rfl rfl rfl⟩
    exact
      { h.links with
        sock_dispatch := by
          intro k hk
          rw [h.links.sock_conn hd hk]
          exact ⟨_, rfl⟩
        order := by
          intro k hk
          rw [h.links.order k hk, hcurrent]
          rfl
        items_conn := by
          intro d hd' i hi
          cases hd'
          exact h.links.items_conn _ hd i hi
        turns_conn := by
          intro d hd' t ht
          cases hd'
          cases ht
        left := fun hd => (by cases hd)
        reading := fun _ _ _ _ hd => (by cases hd)
        closing := fun _ _ _ hd => (by cases hd)
        waiting := by
          intro c hc
          cases hc
          exact ⟨rfl, hitems, fun hmem => hne (h.links.token conn hmem)⟩
        popping := by
          intro c hc
          cases hc
          exact .inl rfl
        token := fun c hc => absurd (h.links.token c hc) hne
        dispatch_opened := by
          intro d hd'
          cases hd'
          exact (h.links.dispatch_opened _ hd : conn < s.opened) }
  · rename_i c items hitems
    have hsock : s.sock = none := by
      apply h.links.signal c
      rw [hitems]
      exact List.mem_cons_self
    have hrest : Inv { s with items := items } := by
      rw [hitems] at hwaits
      refine ⟨?_, ?_⟩
      · exact
          { h.links with
            order := fun _ hk => (by cases hsock.symm.trans hk)
            items_conn := by
              intro d hd' i hi
              apply h.links.items_conn d hd' i
              rw [hitems]
              exact List.mem_cons_of_mem _ hi
            left := fun hnone => (by cases hd.symm.trans hnone)
            signal := fun _ _ => hsock
            waiting := fun c hc => absurd (h.links.waiting c hc).1 hne }
      · rw [System.current]
        dsimp only
        rw [hd]
        exact { hwaits with }
    have hall := hrest.wakeupAll (some .channelClosed) (.inl hsock)
    obtain ⟨_, _, _, _, heq, _, _⟩ :=
      wakeupAll_eq (some .channelClosed) items hrest.waits
    constructor
    · have hd' : (System.wakeupAll (some .channelClosed) items
          { s with items := items }).dispatch = some ⟨conn, .forked⟩ :=
        (congrArg (fun s => s.dispatch) heq).trans hd
      refine hall.endDispatch hd' ?_ ?_
      · exact (congrArg (fun s => s.sock) heq).trans hsock
      · intro i hi
        have hnil : (System.wakeupAll (some .channelClosed) items
            { s with items := items }).items = [] :=
          congrArg (fun s => s.items) heq
        rw [hnil] at hi
        cases hi
    · refine .of_eq ?_ ?_ ?_ ?_
      · exact congrArg (fun s => s.pushed) heq
      · exact (congrArg (fun s => s.opened) heq).symm
      · exact congrArg (fun s => s.sock) heq
      · exact congrArg (fun s => s.read) heq
  · rename_i turn items hitems
    rw [hitems] at hwaits
    have hmem : .response turn ∈ s.items := by
      rw [hitems]
      exact List.mem_cons_self
    have hconn : turn.conn = conn := h.links.items_conn _ hd _ hmem
    have hsock : s.sock.map Sock.conn = some conn ∨
        s.sock.map Sock.conn = none ∧ s.sock = none := by
      cases hcase : s.sock with
      | none => exact .inr ⟨rfl, rfl⟩
      | some k =>
          obtain ⟨phase, hphase⟩ := h.links.sock_dispatch k hcase
          cases hd.symm.trans hphase
          exact .inl rfl
    have hsub : ∀ i ∈ items, i ∈ s.items := by
      intro i hi
      rw [hitems]
      exact List.mem_cons_of_mem _ hi
    obtain ⟨hwait, htoken⟩ := h.links.not_popping hd fun h => (by cases h)
    have hlinks := h.links.setDispatch hd
      (.reading turn (s.sock.map Sock.conn) []) s.read hwait htoken
      (fun h => by cases h) hsub (by
        intro t ht
        cases List.mem_singleton.mp ht
        exact hconn) (by
        intro t sock parts heq
        cases heq
        exact hsock) (fun _ _ h => by cases h) (by
        intro k hk
        have horder := h.links.order k hk
        rw [h.links.sock_conn hd hk, hcurrent, hitems] at horder
        exact horder) h.links.read_pushed
    refine ⟨⟨?_, { hwaits with }⟩, .of_eq rfl rfl rfl rfl⟩
    exact
      { hlinks with
        applied := by
          intro p hp
          rcases List.mem_append.mp hp with hp | hp
          · exact h.links.applied p hp
          · cases List.mem_singleton.mp hp
            dsimp only
            rw [hconn]
            exact hsock.imp_right And.left }

theorem Inv.dispatchByOrder
    (h : Inv s) (hd : s.dispatch = some ⟨conn, .forked⟩)
    (hleft : s.sock = none → ∀ i ∈ s.items,
      ∃ co, s.pc co = .failing i.conn) :
    Inv (s.dispatchByOrder conn) ∧ Later s (s.dispatchByOrder conn) := by
  rw [System.dispatchByOrder]
  split
  · exact h.popResponse hd
  · rename_i hsock
    have hnone : s.sock = none := Option.not_isSome_iff_eq_none.mp hsock
    exact ⟨h.endDispatch hd hnone (hleft hnone), .of_eq rfl rfl rfl rfl⟩

/-! ## The end of a response function -/

/-- The wait whose response function runs is ended, with a response of the
open socket or with an error, and the dispatch coroutine is at the test of its
loop. -/
theorem Inv.endTurn
    (h : Inv s) (hd : s.dispatch = some ⟨conn, phase⟩)
    (hturns : phase.turns = [turn]) (given : Given α)
    (read : ℕ → List (Turn φ × Given α))
    (hread : ∀ c, ∀ x ∈ read c, x ∈ s.read c ∨ x = (turn, given))
    (hkept : ∀ c, ∀ x ∈ s.read c, x ∈ read c)
    (hvalue : given.result ≠ .socketError → (turn, given) ∈ read turn.conn)
    (horder : ∀ k, s.sock = some k → (read k.conn).map Prod.fst =
      (s.read k.conn).map Prod.fst ++ [turn])
    (hgrown : ∀ c, (read c).map Prod.fst <+: s.pushed c) :
    Inv { System.give { s with read := read } turn given with
      dispatch := some ⟨conn, .forked⟩ } := by
  have hcurrent : s.current = turn :: turns s.items := by
    rw [System.current, hd, inflight, hturns]
    rfl
  have hwaits := h.waits
  rw [hcurrent] at hwaits
  have hpc := hwaits.current_pc turn List.mem_cons_self
  have hgive := hwaits.give given read hread hkept hvalue
  rw [give_eq (s := { s with read := read }) given hpc] at hgive ⊢
  have hne : phase ≠ .popping := by
    rintro rfl
    cases hturns
  obtain ⟨hwait, htoken⟩ := h.links.not_popping hd hne
  have hqueue (c : ℕ) :
      .dispatch c ∉ s.wakeupQueue ++ [.thread turn.co] := by
    intro hmem
    rcases List.mem_append.mp hmem with hmem | hmem
    · exact htoken c hmem
    · cases List.mem_singleton.mp hmem
  have hlinks := h.links.setDispatch hd .forked read hwait hqueue
    (fun h => by cases h) (fun _ hi => hi) (fun _ ht => by cases ht)
    (fun _ _ _ h => by cases h) (fun _ _ h => by cases h) (by
      intro k hk
      have hpushed := h.links.order k hk
      have hreads := horder k hk
      rw [h.links.sock_conn hd hk] at hpushed hreads
      rw [hpushed, hcurrent, hreads, List.append_assoc]
      rfl) hgrown
  exact ⟨{ hlinks with }, { hgive with }⟩

variable {sock : Option ℕ}

/-- A response function ends while the socket is open. -/
theorem Inv.endResponse
    (h : Inv s) {parts : List α}
    (hd : s.dispatch = some ⟨conn, .reading turn sock parts⟩)
    (hopen : s.sock ≠ none) (ok : Bool) (data : Data α) :
    ∃ s', s.endResponse conn turn sock ok data = .next s' ∧ Inv s' ∧
      Later s s' := by
  have hcurrent : s.current = turn :: turns s.items := by
    rw [System.current, hd]
    rfl
  have hmem : turn ∈ s.current := by
    rw [hcurrent]
    exact List.mem_cons_self
  have hdata : s.resultData turn.co = none := (h.waits.current_waiting hmem).2.2
  have hsock : sock = some conn := by
    rcases h.links.reading conn turn sock parts hd with heq | ⟨_, hnone⟩
    · exact heq
    · exact absurd hnone hopen
  have hconn : turn.conn = conn :=
    h.links.turns_conn _ hd turn (List.mem_singleton_self _)
  have hk {k : Sock} (hk : s.sock = some k) : k.conn = conn :=
    h.links.sock_conn hd hk
  obtain ⟨given, hgiven⟩ : ∃ given : Given α,
    given = ⟨.value ok, some data⟩ := ⟨_, rfl⟩
  obtain ⟨read, hread⟩ : ∃ read, read = Function.update s.read conn
    (s.read conn ++ [(turn, given)]) := ⟨_, rfl⟩
  have hself : read conn = s.read conn ++ [(turn, given)] := by
    rw [hread, Function.update_self]
  have hother {c : ℕ} (hne : c ≠ conn) : read c = s.read c := by
    rw [hread, Function.update_of_ne hne]
  have hend : Inv { System.give { s with read := read } turn given with
      dispatch := some ⟨conn, .forked⟩ } := by
    apply h.endTurn hd rfl given read
    · intro c x hx
      by_cases heq : c = conn
      · subst heq
        rw [hself, List.mem_append, List.mem_singleton] at hx
        exact hx
      · rw [hother heq] at hx
        exact .inl hx
    · intro c x hx
      by_cases heq : c = conn
      · subst heq
        rw [hself]
        exact List.mem_append_left _ hx
      · rw [hother heq]
        exact hx
    · intro _
      rw [hconn, hself]
      exact List.mem_append_right _ (List.mem_singleton_self _)
    · intro k hsome
      rw [hk hsome, hself, List.map_append]
      rfl
    · intro c
      by_cases heq : c = conn
      · subst heq
        obtain ⟨k, hsome⟩ := Option.ne_none_iff_exists'.mp hopen
        have horder := h.links.order k hsome
        rw [hk hsome, hcurrent, List.append_cons] at horder
        rw [horder, hself, List.map_append]
        exact List.prefix_append _ _
      · rw [hother heq]
        exact h.links.read_pushed c
  have hcases : s.endResponse conn turn sock ok data = .next
      ((System.give { s with read := read } turn given).dispatchByOrder
        conn) := by
    rw [System.endResponse.eq_def, if_neg, hsock, ← hgiven, hread]
    rw [hdata]
    exact fun h => (by cases h.2)
  refine ⟨_, hcases, ?_⟩
  rw [← dispatchByOrder_dispatch (some ⟨conn, .forked⟩)]
  have hpc := h.waits.current_pc turn hmem
  have heq := give_eq (s := { s with read := read }) given hpc
  obtain ⟨hinv, hlater⟩ := hend.dispatchByOrder rfl (by
    intro hnone
    have hsock : s.sock = none := (congrArg (fun s => s.sock) heq) ▸ hnone
    exact absurd hsock hopen)
  refine ⟨hinv, Later.trans ?_ hlater⟩
  rw [heq]
  refine .of_sock (fun _ => List.prefix_rfl) rfl (fun k hk => ⟨k, hk, rfl⟩) ?_
  intro c hclosed
  apply hother
  rintro rfl
  obtain ⟨k, hsome⟩ := Option.ne_none_iff_exists'.mp hopen
  exact hclosed.2 k hsome (hk hsome)

/-- A response function returns; if it is the last return, the socket is
open. -/
theorem Inv.getResponse
    (h : Inv s) {parts : List α}
    (hd : s.dispatch = some ⟨conn, .reading turn sock parts⟩)
    (ok : Bool) (data : α) (padding : Bool)
    (hopen : ¬ (ok = true ∧ padding = true) → s.sock ≠ none) :
    ∃ s', s.getResponse conn turn sock parts ok data padding = .next s' ∧
      Inv s' ∧ Later s s' := by
  rw [System.getResponse]
  split
  · refine ⟨_, rfl, ⟨?_, ?_⟩, .of_eq rfl rfl rfl rfl⟩
    · obtain ⟨hwait, htoken⟩ := h.links.not_popping hd fun h => (by cases h)
      have hturns := h.links.turns_conn _ hd
      have hreading := h.links.reading conn turn sock parts hd
      have hlinks := h.links.setDispatch hd
        (.reading turn sock (parts ++ [data])) s.read hwait htoken
        (fun h => by cases h) (fun _ hi => hi) hturns (by
          intro t sock' parts' heq
          cases heq
          exact hreading) (fun _ _ h => by cases h) (by
          intro k hk
          have horder := h.links.order k hk
          rw [h.links.sock_conn hd hk, System.current, hd] at horder
          exact horder) h.links.read_pushed
      exact
        { hlinks with
          applied := by
            intro p hp
            rcases List.mem_append.mp hp with hp | hp
            · exact h.links.applied p hp
            · cases List.mem_singleton.mp hp
              have hconn : turn.conn = conn :=
                hturns turn (List.mem_singleton_self _)
              dsimp only
              rw [hconn]
              exact hreading.imp_right And.left }
    · have hwaits := h.waits
      rw [System.current, hd] at hwaits
      exact { hwaits with }
  · rename_i hlast
    split
    · exact h.endResponse hd (hopen hlast) _ _
    · exact h.endResponse hd (hopen hlast) _ _

/-- A response function raises an error. -/
theorem Inv.raises
    (h : Inv s) {parts : List α}
    (hd : s.dispatch = some ⟨conn, .reading turn sock parts⟩)
    (error : Option α) :
    Inv { s.closeChannelSocket with
      dispatch := some ⟨conn, .closing turn error⟩ } where
  links := by
    obtain ⟨hwait, htoken⟩ := h.links.not_popping hd fun h => (by cases h)
    exact h.close.links.setDispatch hd (.closing turn error) s.read hwait
      htoken (fun h => by cases h) (fun _ hi => hi)
      (h.links.turns_conn _ hd) (fun _ _ _ h => by cases h)
      (fun _ _ _ => rfl) (fun _ hk => by cases hk) h.links.read_pushed
  waits := by
    have hwaits := h.waits
    rw [System.current, hd] at hwaits
    exact { hwaits with }

/-- After an error the dispatch coroutine ends all waits and itself. -/
theorem Inv.dispatchClosed
    (h : Inv s) {error : Option α}
    (hd : s.dispatch = some ⟨conn, .closing turn error⟩)
    (message : Option (Message α)) :
    let s' := System.dispatchByOrder (System.wakeupAll message s.items
      (s.give turn ⟨.socketError, message.map .message⟩)) conn
    Inv s' ∧ Later s s' ∧ s'.dispatch = none ∧ s'.items = [] := by
  have hsock := h.links.closing conn turn error hd
  have hmem : turn ∈ s.current := by
    rw [System.current, hd]
    exact List.mem_cons_self
  intro s'
  obtain ⟨given, hgiven⟩ : ∃ given : Given α,
    given = ⟨.socketError, message.map .message⟩ := ⟨_, rfl⟩
  have hend := h.endTurn hd rfl given s.read
    (fun _ _ hx => .inl hx) (fun _ _ hx => hx)
    (fun hne => by cases hgiven; exact absurd rfl hne)
    (fun k hk => by cases hsock.symm.trans hk) h.links.read_pushed
  have heq := give_eq given (h.waits.current_pc turn hmem)
  obtain ⟨s₁, hs₁⟩ : ∃ s₁, s₁ = { s.give turn given with
    dispatch := some ⟨conn, .forked⟩ } := ⟨_, rfl⟩
  have hinv₁ : Inv s₁ := hs₁ ▸ hend
  rw [heq] at hs₁
  have hitems₁ : s₁.items = s.items := congrArg (fun s => s.items) hs₁
  have hlater₁ : Later s s₁ := by
    rw [hs₁]
    exact .of_eq rfl rfl rfl rfl
  have hall := hinv₁.wakeupAll message
    (.inl ((congrArg (fun s => s.sock) hs₁).trans hsock))
  have hlater := later_wakeupAll hinv₁.waits message
  obtain ⟨_, _, _, _, hwake, _, _⟩ :=
    wakeupAll_eq message s₁.items hinv₁.waits
  have hs' : s' = System.dispatchByOrder
      (System.wakeupAll message s₁.items s₁) conn := by
    rw [hitems₁, hs₁, ← heq]
    rw [wakeupAll_dispatch, dispatchByOrder_dispatch, hgiven]
  have hd₁ := (congrArg (fun s => s.dispatch) hwake).trans
    (congrArg (fun s => s.dispatch) hs₁)
  have hnone := (congrArg (fun s => s.sock) hwake).trans
    ((congrArg (fun s => s.sock) hs₁).trans hsock)
  have hnil := congrArg (fun s => s.items) hwake
  dsimp only at hd₁ hnone hnil
  obtain ⟨hinv, hlater'⟩ := hall.dispatchByOrder hd₁ (by
    intro _ i hi
    rw [hnil] at hi
    cases hi)
  rw [hs']
  refine ⟨hinv, (hlater₁.trans hlater).trans hlater', ?_⟩
  rw [System.dispatchByOrder, hnone]
  exact ⟨rfl, hnil⟩

/-- The dispatch coroutine is woken. -/
theorem Inv.dispatchWoken
    (h : Inv s)
    (hqueue : s.wakeupQueue = .dispatch conn :: queue) :
    Inv (System.popResponse { s with wakeupQueue := queue } conn) ∧
      Later s (System.popResponse { s with wakeupQueue := queue } conn) := by
  have hmem : .dispatch conn ∈ s.wakeupQueue := by
    rw [hqueue]
    exact List.mem_cons_self
  have hd := h.links.token conn hmem
  have hwait : s.waitResponse = none := by
    by_contra hsome
    obtain ⟨c, hc⟩ := Option.ne_none_iff_exists'.mp hsome
    obtain ⟨hd', _, hnot⟩ := h.links.waiting c hc
    cases hd.symm.trans hd'
    exact hnot hmem
  have hforked : Inv { s with
      wakeupQueue := queue
      dispatch := some ⟨conn, .forked⟩ } := by
    have honce := h.waits.queue_once
    rw [hqueue] at honce
    have hnot := (List.nodup_cons.mp honce).1
    have htoken (c : ℕ) : .dispatch c ∉ queue := by
      intro hc
      have hc' : .dispatch c ∈ s.wakeupQueue := by
        rw [hqueue]
        exact List.mem_cons_of_mem _ hc
      cases hd.symm.trans (h.links.token c hc')
      exact hnot hc
    refine ⟨?_, ?_⟩
    · exact h.links.setDispatch hd .forked s.read hwait htoken (fun h => by cases h)
        (fun _ hi => hi) (fun _ ht => by cases ht)
        (fun _ _ _ h => by cases h) (fun _ _ h => by cases h) (by
          intro k hk
          have horder := h.links.order k hk
          rw [h.links.sock_conn hd hk, System.current, hd] at horder
          exact horder) h.links.read_pushed
    · have hwaits := h.waits
      rw [System.current, hd] at hwaits
      exact { hwaits.dequeue hqueue fun _ _ heq => (by cases heq) with }
  rw [← popResponse_dispatch (some ⟨conn, .forked⟩)]
  obtain ⟨hinv, hlater⟩ := hforked.popResponse rfl
  have hfirst : Later s { s with
      wakeupQueue := queue
      dispatch := some ⟨conn, .forked⟩ } := .of_eq rfl rfl rfl rfl
  exact ⟨hinv, hfirst.trans hlater⟩

end Steps

end SkynetServer.SocketChannel
