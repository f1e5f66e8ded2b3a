import SkynetServer.Master.Names

/-!
# The slaves agree with the master

`dispatch_slave` keeps the first address of a name and announces the one of
the request.  The two are the same when every registration that reaches the
master for a name which has an address carries that address.  Then a slave
knows an address that the master has, or one that is on its way to the master
as the slave's own registration.
-/

namespace SkynetServer.Master

open Transition Seri

/-- The step announces the address which the master keeps, and a new name of
a slave is sent to the master. -/
def Announced (s : State) : Label → Prop
  | .master p => ∀ name address rest, s.up p = .R name address :: rest →
    ∀ kept, s.global_name name = some kept → kept = address
  | .register p name handle => (s.slave p).globalname name = none →
    short (Request.R name handle).values = true
  | _ => True

/-- All messages are delivered. -/
def Quiet (s : State) : Prop := ∀ p, s.up p = [] ∧ s.down p = []

/-- An address that a slave knows is the one of the master. -/
def Agree (s : State) : Prop :=
  ∀ p name address, (s.slave p).globalname name = some address →
    s.global_name name = some address

structure Inv (s : State) : Prop where
  announced : ∀ (p : ℕ) (name : Name) (address : Address),
    .N name address ∈ s.down p → s.global_name name = some address
  known : ∀ (p : ℕ) (name : Name) (address : Address),
    (s.slave p).globalname name = some address →
      s.global_name name = some address ∨ .R name address ∈ s.up p

theorem inv_init : Inv .init where
  announced _ _ _ h := absurd h List.not_mem_nil
  known _ _ _ h := nomatch h

section Parts

variable {s : State} {p : ℕ} {name : Name}

theorem send_up (m : Request) (q : ℕ) :
    (s.send p m).up q = if q = p then s.up p ++ [m] else s.up q :=
  Function.update_apply s.up p _ q

theorem write_down (m : Notice) (q : ℕ) :
    (s.write p m).down q = if q = p then s.down p ++ [m] else s.down q :=
  Function.update_apply s.down p _ q

theorem setSlave_slave (v : Slave) (q : ℕ) :
    (s.setSlave p v).slave q = if q = p then v else s.slave q :=
  Function.update_apply s.slave p v q

theorem mem_send
    {q : ℕ} {m m' : Request} (h : m ∈ s.up q) : m ∈ (s.send p m').up q := by
  rw [send_up]
  split
  · rename_i hq
    exact List.mem_append_left _ (hq ▸ h)
  · exact h

theorem mem_write
    {q : ℕ} {m m' : Notice} (h : m ∈ (s.write p m').down q) :
    m ∈ s.down q ∨ m = m' := by
  rw [write_down] at h
  split at h
  · rename_i hq
    rw [hq]
    exact (List.mem_append.mp h).imp id List.mem_singleton.mp
  · exact .inl h

theorem mem_announce
    {q : ℕ} {m m' : Notice} (h : m ∈ (s.announce m').down q) :
    m ∈ s.down q ∨ m = m' := by
  rw [State.announce] at h
  dsimp only at h
  split at h
  · exact (List.mem_append.mp h).imp id List.mem_singleton.mp
  · exact .inl h

theorem setSlave_globalname
    {v : Slave} (hv : v.globalname = (s.slave p).globalname) (q : ℕ) :
    ((s.setSlave p v).slave q).globalname = (s.slave q).globalname := by
  rw [setSlave_slave]
  split
  · rename_i hq
    rw [hv, hq]
  · rfl

theorem response_name_globalname
    (v : Slave) : (v.response_name name).globalname = v.globalname := by
  rw [Slave.response_name]
  split <;> rfl

theorem setGlobalname_globalname
    (v : Slave) (address : Address) (name' : Name) :
    (v.setGlobalname name address).globalname name' =
      if name' = name then some address else v.globalname name' :=
  Function.update_apply v.globalname name _ name'

end Parts

/-! ## Requests -/

section Requests

variable {s : State} {p : ℕ} {name : Name}

/-- No address is written, and no registration is lost. -/
theorem Inv.of_same
    {s' : State} (h : Inv s) (hglobal : s'.global_name = s.global_name)
    (hdown : ∀ p name address, .N name address ∈ s'.down p →
      .N name address ∈ s.down p)
    (hslave : ∀ p, (s'.slave p).globalname = (s.slave p).globalname)
    (hup : ∀ p name address, .R name address ∈ s.up p →
      .R name address ∈ s'.up p) :
    Inv s' where
  announced p name address hmem := by
    rw [hglobal]
    exact h.announced p name address (hdown p name address hmem)
  known p name address hknown := by
    rw [hslave] at hknown
    rw [hglobal]
    exact (h.known p name address hknown).imp id (hup p name address)

theorem Inv.send (h : Inv s) (m : Request) : Inv (s.send p m) :=
  h.of_same rfl (fun _ _ _ hmem => hmem) (fun _ => rfl)
    fun _ _ _ => mem_send

theorem Inv.setSlave
    {v : Slave} (h : Inv s) (hv : v.globalname = (s.slave p).globalname) :
    Inv (s.setSlave p v) :=
  h.of_same rfl (fun _ _ _ hmem => hmem) (setSlave_globalname hv)
    fun _ _ _ hmem => hmem

theorem Inv.queryname
    (localname : ℕ → Name → Option Address) (r : ℕ) (h : Inv s) :
    Inv (queryname s p localname name r) := by
  rw [Master.queryname]
  split
  · exact h.setSlave rfl
  · split
    · exact h.setSlave rfl
    · split
      · split
        · exact (h.send _).setSlave rfl
        · exact h
      · exact h.setSlave rfl

theorem Inv.monitor_harbor (h : Inv s) : Inv (monitor_harbor s p name) := by
  rw [Master.monitor_harbor]
  split
  · exact h
  · split_ifs
    · exact h.send _
    · exact h

/-- A new name is on its way to the master. -/
theorem Inv.register
    {handle : Address} (h : Inv s)
    (hshort : (s.slave p).globalname name = none →
      short (Request.R name handle).values = true) :
    Inv (register s p name handle) := by
  rw [Master.register]
  dsimp only
  split
  · exact h
  · rename_i hnone
    rw [if_pos (hshort hnone)]
    constructor
    · exact h.announced
    · intro q name' address hknown
      rw [State.send, setSlave_slave] at hknown
      split at hknown
      · rename_i hq
        rw [response_name_globalname, setGlobalname_globalname] at hknown
        split at hknown
        · rename_i hname
          cases hknown
          right
          rw [send_up, if_pos hq, hname]
          exact List.mem_append_right _ List.mem_cons_self
        · rw [hq]
          exact (h.known p name' address hknown).imp id mem_send
      · exact (h.known q name' address hknown).imp id mem_send

end Requests

/-! ## Packages -/

section Packages

variable {s : State} {p : ℕ}

/-- A slave that reads a name learns the address of the master. -/
theorem Inv.monitor_master
    {m : Notice} {rest : List Notice} (h : Inv s) (hdown : s.down p = m :: rest) :
    Inv (monitor_master
      { s with down := Function.update s.down p rest } p m) := by
  have hsub (q : ℕ) (m' : Notice)
      (hmem : m' ∈ Function.update s.down p rest q) : m' ∈ s.down q := by
    rw [Function.update_apply] at hmem
    split at hmem
    · rename_i hq
      rw [hq, hdown]
      exact List.mem_cons_of_mem _ hmem
    · exact hmem
  have hread : Inv { s with down := Function.update s.down p rest } :=
    h.of_same rfl (fun q _ _ => hsub q _) (fun _ => rfl) fun _ _ _ hmem => hmem
  cases m with
  | W n | C slave_id slave_addr => exact hread
  | N name address =>
      have hmaster : s.global_name name = some address :=
        h.announced p name address (hdown ▸ List.mem_cons_self)
      constructor
      · exact hread.announced
      · intro q name' address' hknown
        rw [Master.monitor_master, setSlave_slave] at hknown
        split at hknown
        · rename_i hq
          rw [response_name_globalname, setGlobalname_globalname] at hknown
          split at hknown
          · rename_i hname
            cases hknown
            exact .inl (hname ▸ hmaster)
          · exact hq ▸ h.known p name' address' hknown
        · exact h.known q name' address' hknown

variable {rest : List Request}

/-- A package that is not the one which the master reads. -/
theorem mem_taken
    {m m' : Request} (hup : s.up p = m :: rest)
    (hm : m' ≠ m) {q : ℕ} (hmem : m' ∈ s.up q) :
    m' ∈ Function.update s.up p rest q := by
  rw [Function.update_apply]
  split
  · rename_i hq
    rw [hq, hup] at hmem
    exact (List.mem_cons.mp hmem).resolve_left hm
  · exact hmem

/-- The master reads a package that registers no name. -/
theorem Inv.taken
    {m : Request} (h : Inv s) (hup : s.up p = m :: rest)
    (hm : ∀ name address, .R name address ≠ m) :
    Inv { s with up := Function.update s.up p rest } :=
  h.of_same rfl (fun _ _ _ hmem => hmem) (fun _ => rfl)
    fun _ name address hmem => mem_taken hup (hm name address) hmem

theorem Inv.handshake
    {slave_id : ℕ} {slave_addr : Name} (h : Inv s) :
    Inv (handshake s p slave_id slave_addr) := by
  refine h.of_same rfl ?_ (fun _ => rfl) fun _ _ _ hmem => hmem
  intro q name address hmem
  rcases mem_write hmem with hmem | hm
  · rcases mem_announce hmem with hmem | hm
    · exact hmem
    · cases hm
  · cases hm

theorem Inv.query
    {name : Name} (h : Inv s) : Inv (dispatch_slave s p (.Q name)) := by
  rw [dispatch_slave]
  split
  · rename_i address hmaster
    constructor
    · intro q name' address' hmem
      rcases mem_write hmem with hmem | hm
      · exact h.announced q name' address' hmem
      · cases hm
        exact hmaster
    · exact h.known
  · exact h

/-- The addresses of the master after a registration. -/
theorem registered_global_name
    {name name' : Name} {address address' : Address}
    (hkept : ∀ kept, s.global_name name = some kept → kept = address)
    (h : s.global_name name' = some address' ∨
      name' = name ∧ address' = address) :
    (dispatch_slave s p (.R name address)).global_name name' =
      some address' := by
  rw [dispatch_slave]
  split
  · rename_i kept hsome
    rcases h with h | ⟨rfl, rfl⟩
    · exact h
    · rw [← hkept kept hsome]
      exact hsome
  · rename_i hnone
    refine (Function.update_apply s.global_name name _ name').trans ?_
    rcases h with h | ⟨rfl, rfl⟩
    · rw [if_neg]
      · exact h
      · rintro rfl
        rw [hnone] at h
        cases h
    · exact if_pos rfl

/-- A registration tells every slave the address which the master keeps. -/
theorem Inv.registered
    {name : Name} {address : Address} (h : Inv s)
    (hup : s.up p = .R name address :: rest)
    (hkept : ∀ kept, s.global_name name = some kept → kept = address) :
    Inv (dispatch_slave { s with up := Function.update s.up p rest } p
      (.R name address)) := by
  have hglobal (name' : Name) (address' : Address)
      (h' : s.global_name name' = some address' ∨
        name' = name ∧ address' = address) :
      (dispatch_slave { s with up := Function.update s.up p rest } p
        (.R name address)).global_name name' = some address' :=
    registered_global_name hkept h'
  constructor
  · intro q name' address' hmem
    have hmem' : .N name' address' ∈ s.down q ∨
        Notice.N name' address' = .N name address := by
      rw [dispatch_slave] at hmem
      have := mem_announce hmem
      split at this <;> exact this
    refine hglobal name' address' ?_
    rcases hmem' with hmem' | hm
    · exact .inl (h.announced q name' address' hmem')
    · cases hm
      exact .inr ⟨rfl, rfl⟩
  · intro q name' address' hknown
    have hsame : ((dispatch_slave
        { s with up := Function.update s.up p rest } p
          (.R name address)).slave = s.slave) ∧ (dispatch_slave
        { s with up := Function.update s.up p rest } p
          (.R name address)).up = Function.update s.up p rest := by
      rw [dispatch_slave]
      dsimp only
      split <;> exact ⟨rfl, rfl⟩
    rw [hsame.1] at hknown
    rw [hsame.2]
    by_cases hm : Request.R name' address' = .R name address
    · cases hm
      exact .inl (hglobal name address (.inr ⟨rfl, rfl⟩))
    · exact (h.known q name' address' hknown).imp
        (fun hmaster => hglobal name' address' (.inl hmaster))
        (mem_taken hup hm)

end Packages

/-! ## Runs -/

theorem inv_step
    {localname : ℕ → Name → Option Address} {s s' : State} {l : Label}
    (h : Inv s) (hok : Announced s l) (hs : step localname s l = .next s') :
    Inv s' := by
  cases l with
  | start p slave_addr =>
      rw [step] at hs
      split at hs
      · cases hs
      · cases hs
        exact Inv.send (s := { s with started := s.started ++ [p] })
          ⟨h.announced, h.known⟩ _
  | register p name handle =>
      rw [step] at hs
      split at hs
      · cases hs
        exact h.register hok
      · cases hs
  | queryname p name r =>
      rw [step] at hs
      split at hs
      · cases hs
        exact h.queryname localname r
      · cases hs
  | harbor p name =>
      rw [step] at hs
      split at hs
      · cases hs
        exact h.monitor_harbor
      · cases hs
  | master p =>
      rw [step] at hs
      split at hs
      · cases hs
      · rename_i m rest hup
        rw [read_slave.eq_def] at hs
        split at hs
        · cases hs
          cases m with
          | H slave_id slave_addr => exact h.taken hup (by rintro _ _ ⟨⟩)
          | Q name => exact (h.taken hup (by rintro _ _ ⟨⟩)).query
          | R name address =>
              exact h.registered hup (hok name address rest hup)
        · split at hs
          · cases hs
            exact (h.taken hup (by rintro _ _ ⟨⟩)).handshake
          · cases hs
  | slave p =>
      rw [step] at hs
      split at hs
      · cases hs
      · rename_i m rest hdown
        cases hs
        exact h.monitor_master hdown

/-- In a run in which every registration that reaches the master carries the
address which the master keeps, if it keeps one, and fits into a package, the
slaves agree with the master whenever all messages are delivered. -/
theorem names_agree
    {localname : ℕ → Name → Option Address} {s : State}
    (h : Reaches (step localname) Announced .init s) (hquiet : Quiet s) :
    Agree s := by
  have hinv : Inv s := h.invariant Inv inv_init fun _ _ _ => inv_step
  intro p name address hknown
  refine (hinv.known p name address hknown).resolve_right ?_
  rw [(hquiet p).1]
  exact List.not_mem_nil

/-! ## Two slaves -/

/-- Two slaves start and join. -/
def joins : List Label :=
  [.start 1 [], .start 2 [], .master 1, .master 2, .slave 1, .slave 1,
    .slave 2]

/-- The first slave registers a name, and the second one asks for it. -/
def registerThenQuery : List Label :=
  [.register 1 [120] 5#32, .master 1, .slave 1, .queryname 2 [120] 0,
    .master 2, .slave 2, .slave 2]

/-- Both slaves register one name before they hear of the other. -/
def registerTwice : List Label :=
  [.register 1 [120] 5#32, .register 2 [120] 6#32, .master 1, .master 2,
    .slave 1, .slave 1, .slave 2, .slave 2]

/-- `Announced`, for the head of the connection. -/
def announcedTest (s : State) : Label → Bool
  | .master p =>
    match s.up p with
    | .R name address :: _ =>
      match s.global_name name with
      | some kept => kept = address
      | none => true
    | _ => true
  | .register p name handle =>
    (s.slave p).globalname name ≠ none ∨
      short (Request.R name handle).values = true
  | _ => true

theorem announced_of_test
    (s : State) (l : Label) (h : announcedTest s l = true) :
    Announced s l := by
  cases l with
  | master p =>
      intro name address rest hup kept hkept
      rw [announcedTest, hup] at h
      simp only [hkept, decide_eq_true_eq] at h
      exact h
  | register p name handle =>
      intro hnone
      rw [announcedTest, decide_eq_true_eq] at h
      exact h.resolve_left fun hsome => hsome hnone
  | _ => trivial

theorem agree_after_query :
    ∃ s, Reaches (step fun _ _ => none) Announced .init s ∧ Quiet s ∧
      Agree s ∧ (s.slave 2).globalname [120] = some 5#32 := by
  obtain ⟨s, h, hquiet, hname⟩ :
      ∃ s, execWhile (step fun _ _ => none) announcedTest .init
        (joins ++ registerThenQuery) = .next s ∧ Quiet s ∧
          (s.slave 2).globalname [120] = some 5#32 := by
    refine ⟨_, rfl, fun p => ?_, rfl⟩
    rcases p with _ | _ | _ | p <;> exact ⟨rfl, rfl⟩
  have hrun := reaches_of_execWhile announced_of_test h
  exact ⟨s, hrun, hquiet, names_agree hrun hquiet, hname⟩

/-- The master keeps the first address, and the slaves the last one. -/
theorem registered_twice :
    ¬ ∀ (localname : ℕ → Name → Option Address) (s : State),
      Reaches (step localname) anyStep .init s → Quiet s → Agree s := by
  intro hclaim
  obtain ⟨s, h, hquiet, hslave, hmaster⟩ :
      ∃ s, exec (step fun _ _ => none) .init (joins ++ registerTwice) =
        .next s ∧ Quiet s ∧ (s.slave 1).globalname [120] = some 6#32 ∧
          s.global_name [120] = some 5#32 := by
    refine ⟨_, rfl, fun p => ?_, rfl, rfl⟩
    rcases p with _ | _ | _ | p <;> exact ⟨rfl, rfl⟩
  have hagree := hclaim _ s (reaches_of_exec h) hquiet 1 [120] 6#32 hslave
  rw [hmaster] at hagree
  cases hagree

end SkynetServer.Master

