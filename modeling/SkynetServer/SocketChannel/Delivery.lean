import SkynetServer.SocketChannel.Calls

/-!
# Responses in the order of the requests

In a fair run the responses that are read on a connection go to the waits on
it one after the other.  When the connection is closed the others end with an
error, and no response function meets the socket of another connection.
-/

namespace SkynetServer.SocketChannel

open Transition

section Runs

variable {φ α : Type*} {auth : Bool} {s s' : System φ α}

theorem inv_start (φ α : Type*) : Inv (start φ α) where
  links :=
    { sock_dispatch := fun _ hk => (by cases hk)
      order := fun _ hk => (by cases hk)
      read_pushed := fun _ => List.nil_prefix
      items_conn := fun _ hd => (by cases hd)
      turns_conn := fun _ hd => (by cases hd)
      left := fun _ _ hi => (by cases hi)
      signal := fun _ hi => (by cases hi)
      reading := fun _ _ _ _ hd => (by cases hd)
      closing := fun _ _ _ hd => (by cases hd)
      waiting := fun _ hc => (by cases hc)
      popping := fun _ hd => (by cases hd)
      token := fun _ hc => (by cases hc)
      dispatch_opened := fun _ hd => (by cases hd)
      pushed_opened := fun _ _ => rfl
      failing := fun _ _ hpc => (by cases hpc)
      applied := fun _ hp => (by cases hp)
      stage := fun _ hk => (by cases hk)
      auth := fun _ hco => (by cases hco) }
  waits :=
    { pushed_turn := fun _ _ _ hn => (by cases hn)
      current_pushed := fun _ ht => (by cases ht)
      woken_pushed := fun _ _ ht => (by cases ht)
      once := List.nodup_nil
      all := fun _ _ ht => (by cases ht)
      waiting := fun _ _ hpc => (by cases hpc)
      current_pc := fun _ ht => (by cases ht)
      idle := fun _ _ => ⟨rfl, rfl⟩
      ended := fun _ _ ht => (by cases ht)
      returned_woken := fun _ _ ht => (by cases ht)
      returned_once := List.nodup_nil
      queue_once := List.nodup_nil
      queue := fun _ ht => (by cases ht)
      awaiting := fun _ ht => (by cases ht)
      awaiting_once := List.nodup_nil
      read_woken := fun _ _ _ ht => (by cases ht)
      woken_read := fun _ _ ht => (by cases ht) }

theorem reaches_later
    (h : Inv s) (hrun : Reaches (step auth) fair s s') :
    Inv s' ∧ Later s s' := by
  apply hrun.invariant fun s' => Inv s' ∧ Later s s'
  · exact ⟨h, .refl s⟩
  · rintro t l t' ⟨hinv, hlater⟩ hfair hstep
    rcases keeps_step auth hinv hfair with hblocked | ⟨u, hu, hinv', hlater'⟩
    · cases hblocked.symm.trans hstep
    · cases hu.symm.trans hstep
      exact ⟨hinv', hlater.trans hlater'⟩

theorem reaches_inv
    (hrun : Reaches (step auth) fair (start φ α) s) : Inv s :=
  (reaches_later (inv_start φ α) hrun).1

/-- The waits of a closed connection that were not ended. -/
theorem closed_woken
    (h : Inv s) (h' : Inv s') (hlater : Later s s') {c : ℕ}
    (hclosed : Closed s c) {t : Turn φ} (hconn : t.conn = c)
    (hwoken : t ∉ s.woken.map Prod.fst) {g : Given α}
    (hmem : (t, g) ∈ s'.woken) : g.result = .socketError := by
  by_contra hne
  have hread := h'.waits.woken_read t g hmem hne
  rw [hconn, (hlater.closed c hclosed).2] at hread
  exact hwoken (List.mem_map_of_mem (h.waits.read_woken c t g hread))

/-- The connection of a wait that is current is the one of the dispatch
coroutine or of a request whose write failed. -/
theorem current_conn
    (h : Inv s) {t : Turn φ} (ht : t ∈ s.current) :
    (∃ d, s.dispatch = some d ∧ d.conn = t.conn) ∨
      ∃ co, s.pc co = .failing t.conn := by
  have hitem (hmem : t ∈ turns s.items) : .response t ∈ s.items := by
    obtain ⟨item, hitem, hturn⟩ := List.mem_flatMap.mp hmem
    cases item with
    | signal c => cases hturn
    | response turn =>
        cases List.mem_singleton.mp hturn
        exact hitem
  cases hd : s.dispatch with
  | none =>
      rw [System.current, hd] at ht
      exact .inr (h.links.left hd _ (hitem ht))
  | some d =>
      left
      refine ⟨d, rfl, ?_⟩
      rw [System.current, hd] at ht
      rcases List.mem_append.mp ht with ht | ht
      · exact (h.links.turns_conn d hd t ht).symm
      · exact (h.links.items_conn d hd _ (hitem ht)).symm

/-- When a response function raises an error, the dispatch coroutine ends all
waits. -/
theorem raises_spec
    (h : Inv s) {conn : ℕ} {turn : Turn φ} {sock : Option ℕ}
    {parts : List α} (hd : s.dispatch = some ⟨conn, .reading turn sock parts⟩)
    (error : Option α) :
    ∃ s₁ s₂, step auth s (.raises error) = .next s₁ ∧
      step auth s₁ .dispatchClosed = .next s₂ ∧
      ∀ t ∈ s.current, ∃ g, (t, g) ∈ s₂.woken ∧ g.result = .socketError := by
  have hraises := h.raises hd error
  obtain ⟨hinv, hlater, hnone, hitems⟩ := hraises.dispatchClosed rfl
    (error.map Message.value)
  refine ⟨{ s.closeChannelSocket with
    dispatch := some ⟨conn, .closing turn error⟩ }, _, ?_, rfl, ?_⟩
  · rw [step, hd]
  intro t ht
  have hpushed := h.waits.current_pushed t ht
  have hpushed' := (hlater.pushed t.conn).subset hpushed
  have hended := (hinv.waits.all t.conn t hpushed').resolve_right (by
    rw [System.current, hnone, hitems]
    exact List.not_mem_nil)
  obtain ⟨⟨t', g⟩, hmem, heq⟩ := List.mem_map.mp hended
  cases heq
  refine ⟨g, hmem, ?_⟩
  have hlt : t'.conn < s.opened := by
    by_contra hle
    rw [h.links.pushed_opened _ (Nat.le_of_not_lt hle)] at hpushed
    cases hpushed
  exact closed_woken hraises hinv hlater ⟨hlt, fun _ hk => by cases hk⟩ rfl
    (h.waits.notMem_woken ht) hmem

/-- In every fair run the `n`-th response that is read on a connection goes to
the `n`-th wait on it, and a response function is applied to no socket but the
one of its connection.  A wait is ended at most once, and its coroutine is
woken and returns what it was given.  The dispatch coroutine sleeps only when
no wait is queued, and when a response function raises an error it ends all
waits.  A wait that has not ended when its connection is closed ends with an
error only, and it has ended when neither the dispatch coroutine of the
connection nor a request whose write failed is left.  No assertion fails. -/
theorem responses_in_order
    (hrun : Reaches (step auth) fair (start φ α) s) :
    (∀ c n t g, (s.read c)[n]? = some (t, g) →
      (s.pushed c)[n]? = some t ∧ t.conn = c ∧ t.index = n ∧
        (t, g) ∈ s.woken) ∧
      (∀ p ∈ s.applied, p.2 = some p.1 ∨ p.2 = none) ∧
      ((s.woken.map Prod.fst).Nodup ∧ (s.returned.map Prod.fst).Nodup ∧
        s.wakeupQueue.Nodup ∧ ∀ t g, (t, g) ∈ s.woken →
          s.pc t.co = .waiting t ∧ .thread t.co ∈ s.wakeupQueue ∨
            (t, g.return) ∈ s.returned) ∧
      (∀ conn, s.dispatch = some ⟨conn, .popping⟩ → s.items ≠ [] →
        .dispatch conn ∈ s.wakeupQueue) ∧
      (∀ conn turn sock parts error,
        s.dispatch = some ⟨conn, .reading turn sock parts⟩ →
        ∃ s₁ s₂, step auth s (.raises error) = .next s₁ ∧
          step auth s₁ .dispatchClosed = .next s₂ ∧
          ∀ t ∈ s.current, ∃ g, (t, g) ∈ s₂.woken ∧
            g.result = .socketError) ∧
      (∀ s', Reaches (step auth) fair s s' → ∀ c, Closed s c →
        ∀ t ∈ s.pushed c, t ∉ s.woken.map Prod.fst →
          (∀ g, (t, g) ∈ s'.woken → g.result = .socketError) ∧
          ((∀ d, s'.dispatch = some d → d.conn ≠ c) →
            (∀ co, s'.pc co ≠ .failing c) → ∃ g, (t, g) ∈ s'.woken)) ∧
      ∀ l, fair s l → ∀ failure, step auth s l ≠ .fault failure := by
  have hinv := reaches_inv hrun
  refine ⟨?_, hinv.links.applied, ⟨?_, hinv.waits.returned_once,
    hinv.waits.queue_once, ?_⟩, ?_, ?_, ?_, ?_⟩
  · intro c n t g hn
    have hmap : ((s.read c).map Prod.fst)[n]? = some t := by
      rw [List.getElem?_map, hn]
      rfl
    have hpushed : (s.pushed c)[n]? = some t := by
      obtain ⟨rest, heq⟩ := hinv.links.read_pushed c
      rw [← heq, List.getElem?_append_left]
      · exact hmap
      · exact (List.getElem?_eq_some_iff.mp hmap).1
    obtain ⟨hconn, hindex⟩ := hinv.waits.pushed_turn c n t hpushed
    exact ⟨hpushed, hconn, hindex,
      hinv.waits.read_woken c t g (List.mem_of_getElem? hn)⟩
  · exact (List.nodup_append.mp hinv.waits.once).1
  · intro t g hmem
    refine (hinv.waits.ended t g hmem).imp_left fun hpc => ⟨hpc, ?_⟩
    obtain ⟨_, ⟨hcurrent, _⟩ | ⟨_, _, hqueued, _⟩⟩ :=
      hinv.waits.waiting _ t hpc
    · exact absurd (List.mem_map_of_mem hmem)
        (hinv.waits.notMem_woken hcurrent)
    · exact hqueued
  · intro conn hd hitems
    refine (hinv.links.popping conn hd).resolve_left ?_
    exact fun hwait => hitems (hinv.links.waiting conn hwait).2.1
  · intro conn turn sock parts error hd
    exact raises_spec hinv hd error
  · intro s' hrun' c hclosed t ht hwoken
    obtain ⟨hinv', hlater⟩ := reaches_later hinv hrun'
    obtain ⟨n, hn⟩ := List.getElem?_of_mem ht
    have hconn := (hinv.waits.pushed_turn c n t hn).1
    refine ⟨fun g => closed_woken hinv hinv' hlater hclosed hconn hwoken, ?_⟩
    intro hdispatch hfailing
    have ht' := (hlater.pushed c).subset ht
    rcases hinv'.waits.all c t ht' with hended | hcurrent
    · obtain ⟨⟨_, g⟩, hmem, rfl⟩ := List.mem_map.mp hended
      exact ⟨g, hmem⟩
    · rcases current_conn hinv' hcurrent with ⟨d, hd, heq⟩ | ⟨co, hco⟩
      · exact absurd (heq.trans hconn) (hdispatch d hd)
      · exact absurd (hconn ▸ hco) (hfailing co)
  · intro l hfair failure hfault
    rcases keeps_step auth hinv hfair with h | ⟨_, h, _⟩
    · cases h.symm.trans hfault
    · cases h.symm.trans hfault

end Runs

section Example

variable {φ α : Type*} {s : System φ α}

theorem fair_opened (hitems : s.items = []) (ok written : Bool) :
    fair s (.opened ok written) :=
  fun _ _ => hitems

theorem fair_start {sock : Sock} (hsock : s.sock = some sock) :
    fair s .start :=
  fun hnone => (by cases hsock.symm.trans hnone)

theorem fair_returns
    {sock : Sock} (hsock : s.sock = some sock) (ok : Bool) (data : α)
    (padding : Bool) : fair s (.returns ok data padding) :=
  fun _ hnone => (by cases hsock.symm.trans hnone)

end Example

/-- One request gets the response of its connection. -/
theorem one_response :
    ∃ s : System ℕ ℕ, Reaches (step false) fair (start ℕ ℕ) s ∧
      (s.read 0)[0]? =
        some (⟨0, 0, 1, 10⟩, ⟨.value true, some (.value 7)⟩) ∧
      (s.pushed 0)[0]? = some ⟨0, 0, 1, 10⟩ := by
  have hrun : Reaches (step false) fair (start ℕ ℕ) _ := Reaches.refl
    |>.tail (.call 1 (.request (some 10)) true) trivial rfl
    |>.tail _ (fair_opened rfl true true) rfl
    |>.tail _ (fair_start rfl) rfl
    |>.tail _ (fair_returns rfl true 7 false) rfl
  exact ⟨_, hrun, rfl, ((responses_in_order hrun).1 0 0 _ _ rfl).1⟩

/-- The socket is closed while the first of two responses is read: the second
request is not woken, and its function is applied to the socket of the next
connection, where it takes the response of another request. -/
theorem response_of_old_connection :
    ∃ s s' : System ℕ ℕ, Reaches (step false) anyStep (start ℕ ℕ) s ∧
      s.pc 2 = .waiting ⟨0, 1, 2, 20⟩ ∧ Closed s 0 ∧
      s.dispatch = none ∧ s.wakeupQueue = [] ∧ s.connecting = none ∧
      Reaches (step false) anyStep s s' ∧ (0, some 1) ∈ s'.applied ∧
      (s'.read 1).map Prod.fst = [⟨0, 1, 2, 20⟩] ∧
      s'.pushed 1 = [⟨1, 0, 3, 30⟩] := by
  obtain ⟨s, hs⟩ : ∃ s, exec (step false) (start ℕ ℕ)
    [.call 1 (.request (some 10)) true, .opened true true,
      .call 2 (.request (some 20)) true, .start, .changehost,
      .returns true 7 false, .wakeup true] = .next s := ⟨_, rfl⟩
  obtain ⟨s', hs'⟩ : ∃ s', exec (step false) s
    [.call 3 (.request (some 30)) true, .opened true true, .start,
      .returns true 8 false] = .next s' := by
    cases hs
    exact ⟨_, rfl⟩
  refine ⟨s, s', reaches_of_exec hs, ?_⟩
  have hrun := reaches_of_exec hs'
  cases hs
  cases hs'
  exact ⟨rfl, ⟨Nat.zero_lt_one, fun _ hk => by cases hk⟩, rfl, rfl, rfl,
    hrun, List.mem_cons_of_mem _ List.mem_cons_self, rfl, rfl⟩

end SkynetServer.SocketChannel
