import SkynetServer.Service.Ownership

/-!
# Steps keep the ownership of queues

One lemma for each kind of step that concerns queues or their contexts; the
other steps are covered by `Ownership.goto`.
-/

namespace SkynetServer.Service

open Handle (Ctx HandleStorage)
open Mq (Message)
open Function Transition

namespace State

section Steps

variable {τ : Type*} [Fintype τ] [DecidableEq τ]
  {s s₁ s' : State τ} {t : τ} {p : Pc} {c : Ctx} {q : Mq}

/-- The balance of one step: the queue `q` changes its place. -/
theorem Placed.goto
    {l l' : List Mq} (hl : Placed s l) (hpc : s₁.pc = s.pc)
    (hlist : s₁.global.Represents l')
    (hcount : ∀ q, l'.count q + Pc.holds q p + s.due q =
      l.count q + Pc.holds q (s.pc t) + s₁.due q) :
    Placed (s₁.goto t p) l' := by
  refine ⟨hlist, fun q => ?_⟩
  have htotal := Census.total_update (Pc.holds q) s.pc (Finset.mem_univ t) p
  have hgoto : (s₁.goto t p).pc = update s.pc t p := by
    rw [← hpc]
    rfl
  have hbefore := hl.count q
  have hafter := hcount q
  rw [hgoto]
  change _ = s₁.due q
  omega

theorem Marks.goto
    (hs : Marks s) (hpc : s₁.pc = s.pc)
    (hcount : ∀ c, Pc.deletes c p + s₁.marked c + s.deleted c =
      Pc.deletes c (s.pc t) + s.marked c + s₁.deleted c) :
    Marks (s₁.goto t p) := by
  intro c
  have htotal := Census.total_update (Pc.deletes c) s.pc (Finset.mem_univ t) p
  have hgoto : (s₁.goto t p).pc = update s.pc t p := by
    rw [← hpc]
    rfl
  have hbefore := hs c
  have hafter := hcount c
  rw [hgoto]
  change _ + s₁.marked c = s₁.deleted c
  omega

theorem deletes_of_deleting {p' : Pc} (h : p'.deleting = p.deleting) (c : Ctx) :
    Pc.deletes c p' = Pc.deletes c p := by
  rw [Pc.deletes, Pc.deletes, h]

theorem holds_of_held {p' : Pc} (h : p'.held = p.held) (q : Mq) :
    Pc.holds q p' = Pc.holds q p := by
  rw [Pc.holds, Pc.holds, h]

/-- A step that leaves queues, marks and places alone. -/
theorem Ownership.goto
    (hs : Ownership s) (hcounted : Counted (s₁.goto t p))
    (hnumbered : Numbered (s₁.goto t p)) (hlinks : QueueLinks (s₁.goto t p))
    (hpc : s₁.pc = s.pc)
    (hqueue : s₁.queue = s.queue) (hqueues : s₁.queues = s.queues)
    (hdeleted : s₁.deleted = s.deleted) (hfreed : s₁.freed = s.freed)
    (hglobal : s₁.global = s.global)
    (hflags : ∀ q, SameFlags (s.mq q) (s₁.mq q))
    (hheld : p.held = (s.pc t).held)
    (hdeleting : p.deleting = (s.pc t).deleting)
    (hserving : ∀ q c, p.serving = some (q, c) → s.queue c = some q)
    (hdropping : ∀ q, p.dropping = some q → (s.mq q).release = true) :
    Ownership (s₁.goto t p) where
  counted := hcounted
  numbered := hnumbered
  links := hlinks
  pcs := by
    refine hs.pcs.goto hpc (fun c q h => ?_) (fun t' q _ h => ?_)
      (fun q c h => ?_) (fun q h => ?_)
    · rwa [hqueue]
    · rwa [(hflags q).release]
    · rw [hqueue]
      exact hserving q c h
    · rw [(hflags q).release]
      exact hdropping q h
  marks := by
    refine hs.marks.goto hpc fun c => ?_
    rw [deletes_of_deleting hdeleting, hdeleted,
      marked_congr (congrFun hqueue c) fun q _ => (hflags q).release]
  rest := by
    intro q hin hpending
    have hflag := hflags q
    exact hs.rest q (hflag.inGlobal.symm.trans hin) (hflag.pending hpending)
  freed := by
    intro q
    change s₁.freed q ≤ 1 ∧
      (0 < s₁.freed q → q < s₁.queues ∧ (s₁.mq q).release = true)
    rw [hfreed, hqueues, (hflags q).release]
    exact hs.freed q
  placed := by
    obtain ⟨l, hl⟩ := hs.placed
    refine ⟨l, hl.goto hpc (hglobal ▸ hl.list) fun q => ?_⟩
    rw [holds_of_held hheld, due_congr hqueues (congrFun hfreed q)
      (hflags q).inGlobal (hflags q).release]

omit [Fintype τ] in
theorem QueueLinks.register
    (hs : QueueLinks s) (hn : Numbered s)
    {act : Act} (hfresh : s.HandlesFresh (t, act)) (hact : act = .new)
    (hpc : s.pc t = .idle) {storage : HandleStorage} {h : ℕ}
    (hreg : Handle.handleRegister s.handle s.storage s.contexts =
      .ok (storage, h))
    {ref : Ctx → ℤ} {handle : Ctx → ℕ} {init endless cb : Ctx → Bool}
    (hn' : Numbered (State.goto
      { s with
        storage, ref, init, endless, cb, handle
        contexts := s.contexts + 1
        issued := update s.issued s.contexts h }
      t (.newHandle s.contexts h))) :
    QueueLinks (State.goto
      { s with
        storage, ref, init, endless, cb, handle
        contexts := s.contexts + 1
        issued := update s.issued s.contexts h }
      t (.newHandle s.contexts h)) := by
  have hnone : s.queue s.contexts = none := by
    by_contra hne
    obtain ⟨q, hq⟩ := Option.ne_none_iff_exists'.mp hne
    exact absurd (hs.queue _ q hq).1 (lt_irrefl _)
  have hold : ∀ {d}, d < s.contexts →
      update s.issued s.contexts h d = s.issued d :=
    fun hd => update_of_ne (Nat.ne_of_lt hd) _ _
  -- Live handles differ because the table is correct, retired ones are not
  -- given out again.
  have hnew : ∀ d < s.contexts, s.issued d ≠ h := by
    intro d hd heq
    cases hretired : s.retired d with
    | true => exact hfresh hact storage h hreg d hd hretired heq
    | false =>
        have hdheld := (hn'.held d).mpr ⟨Nat.lt_succ_of_lt hd, hretired⟩
        have hcheld := (hn'.held s.contexts).mpr
          ⟨Nat.lt_succ_self _, hn.fresh _ (le_refl _)⟩
        have heq' : update s.issued s.contexts h d =
            update s.issued s.contexts h s.contexts := by
          rw [hold hd, update_self, heq]
        exact Nat.ne_of_lt hd (hn'.table.issued_inj hdheld hcheld heq')
  constructor
  · intro c hc d hd heq
    change update s.issued s.contexts h c =
      update s.issued s.contexts h d at heq
    rcases Nat.lt_succ_iff_lt_or_eq.mp hc with hc | rfl
    · rcases Nat.lt_succ_iff_lt_or_eq.mp hd with hd | rfl
      · rw [hold hc, hold hd] at heq
        exact hs.distinct c hc d hd heq
      · rw [hold hc, update_self] at heq
        exact absurd heq (hnew c hc)
    · rcases Nat.lt_succ_iff_lt_or_eq.mp hd with hd | rfl
      · rw [hold hd, update_self] at heq
        exact absurd heq.symm (hnew d hd)
      · rfl
  · intro c q hq
    obtain ⟨hc, hlt, hhandle⟩ := hs.queue c q hq
    exact ⟨Nat.lt_succ_of_lt hc, hlt, hhandle.trans (hold hc).symm⟩
  · intro c hc hcnone
    rcases Nat.lt_succ_iff_lt_or_eq.mp hc with hc | rfl
    · obtain ⟨t', ht'⟩ := hs.opened c hc hcnone
      have hne : t' ≠ t := by
        rintro rfl
        rw [hpc] at ht'
        cases ht'
      exact ⟨t', by rw [goto_pc_of_ne hne]; exact ht'⟩
    · exact ⟨t, by rw [goto_pc_self]; rfl⟩
  · intro t' c hc
    by_cases ht : t' = t
    · subst ht
      rw [goto_pc_self] at hc
      cases hc
      exact hnone
    · rw [goto_pc_of_ne ht] at hc
      exact hs.unopened t' c hc
  · exact hs.owner

theorem Ownership.releaseLast
    (hs : Ownership s) {k : After} (hpc : s.pc t = .release c k)
    {ref : Ctx → ℤ} {deleted : Ctx → ℕ}
    (hdeleted : deleted = update s.deleted c (s.deleted c + 1))
    (hcounted : Counted (State.goto { s with ref, deleted } t (.delete c k)))
    (hnumbered : Numbered
      (State.goto { s with ref, deleted } t (.delete c k))) :
    Ownership (State.goto { s with ref, deleted } t (.delete c k)) where
  counted := hcounted
  numbered := hnumbered
  links := hs.links.goto rfl rfl rfl rfl rfl (fun _ => rfl)
    (by rw [hpc]; rfl)
  pcs := hs.pcs.goto rfl (fun _ _ h => h) (fun _ _ _ h => h) nofun nofun
  marks := by
    refine hs.marks.goto rfl fun d => ?_
    have hbefore : Pc.deletes d (s.pc t) = 0 := by rw [hpc]; rfl
    have hsame : marked { s with ref, deleted } d = s.marked d := rfl
    rw [hbefore, hsame, Pc.deletes, Pc.deleting, hdeleted]
    by_cases hd : d = c
    · subst hd
      simp
      omega
    · simp [update_of_ne hd, Ne.symm hd]
  rest := hs.rest
  freed := hs.freed
  placed := by
    obtain ⟨l, hl⟩ := hs.placed
    refine ⟨l, hl.goto rfl hl.list fun q => ?_⟩
    rw [hpc]
    rfl

/-- The new queue is held by the creator of its context. -/
theorem Ownership.create
    (hs : Ownership s) {act : Act} (hlock : s.LockDelimited (t, act))
    (hpc : s.pc t = .newQueue c) {memory : ℤ → Message}
    (hcounted : Counted (State.goto
      { s with
        queues := s.queues + 1
        mq := update s.mq s.queues (Mq.create (s.handle c) memory)
        queue := update s.queue c (some s.queues) }
      t (.newInit c s.queues)))
    (hnumbered : Numbered (State.goto
      { s with
        queues := s.queues + 1
        mq := update s.mq s.queues (Mq.create (s.handle c) memory)
        queue := update s.queue c (some s.queues) }
      t (.newInit c s.queues))) :
    Ownership (State.goto
      { s with
        queues := s.queues + 1
        mq := update s.mq s.queues (Mq.create (s.handle c) memory)
        queue := update s.queue c (some s.queues) }
      t (.newInit c s.queues)) := by
  obtain ⟨l, hl⟩ := hs.placed
  have hopening : (s.pc t).opening = some c := by rw [hpc]; rfl
  have hnone := hs.links.unopened t c hopening
  have hclt := hs.counted.lt_contexts
    (hs.counted.ref_pos_of_owned (Pc.owned_of_opening hopening))
  have hstored := hs.handle_eq hlock (by rw [hpc]; rfl) hclt
  have hmq : ∀ {q}, q < s.queues → update s.mq s.queues
      (Mq.create (s.handle c) memory) q = s.mq q :=
    fun hq => update_of_ne (Nat.ne_of_lt hq) _ _
  have hqueue : ∀ {d q}, s.queue d = some q → d ≠ c := by
    rintro d q hd rfl
    rw [hnone] at hd
    cases hd
  refine ⟨hcounted, hnumbered, ?_, ?_, ?_, ?_, ?_, ?_⟩
  · constructor
    · exact hs.links.distinct
    · intro d q hd
      simp only [State.goto] at hd ⊢
      by_cases hdc : d = c
      · subst hdc
        rw [update_self] at hd
        cases hd
        rw [update_self]
        exact ⟨hclt, Nat.lt_succ_self _, hstored⟩
      · rw [update_of_ne hdc] at hd
        obtain ⟨hdlt, hq, hhandle⟩ := hs.links.queue d q hd
        rw [hmq hq]
        exact ⟨hdlt, Nat.lt_succ_of_lt hq, hhandle⟩
    · intro d hd hdnone
      have hdc : d ≠ c := by
        rintro rfl
        simp [State.goto] at hdnone
      simp only [State.goto, update_of_ne hdc] at hdnone
      obtain ⟨t', ht'⟩ := hs.links.opened d hd hdnone
      have hne : t' ≠ t := by
        rintro rfl
        rw [hopening] at ht'
        cases ht'
        exact hdc rfl
      exact ⟨t', by rw [goto_pc_of_ne hne]; exact ht'⟩
    · intro t' d hd
      by_cases ht : t' = t
      · subst ht
        rw [goto_pc_self] at hd
        cases hd
      · rw [goto_pc_of_ne ht] at hd
        have := hlock t' ht
        rw [show (s.pc t').opening = some d from hd] at this
        cases this
    · intro q hq
      rcases Nat.lt_succ_iff_lt_or_eq.mp hq with hq | rfl
      · obtain ⟨d, hd⟩ := hs.links.owner q hq
        exact ⟨d, (update_of_ne (hqueue hd) _ _).trans hd⟩
      · exact ⟨c, update_self ..⟩
  · refine hs.pcs.goto rfl ?_ ?_ (by intro q c h; cases h)
      (by intro q h; cases h)
    · intro d q hd
      exact (update_of_ne (hqueue hd) _ _).trans hd
    · intro t' q hdrop hrelease
      obtain ⟨-, hq, -⟩ := hl.held_due (Pc.held_of_dropping hdrop)
      dsimp only
      rwa [hmq hq]
  · refine hs.marks.goto rfl fun d => ?_
    have hbefore : Pc.deletes d (s.pc t) = 0 := by rw [hpc]; rfl
    have hafter : Pc.deletes d (.newInit c s.queues) = 0 := rfl
    rw [hbefore, hafter]
    congr 2
    by_cases hdc : d = c
    · subst hdc
      simp [marked, hnone, Mq.create]
    · refine marked_congr (update_of_ne hdc _ _) ?_
      intro q hq
      dsimp only
      rw [hmq (hs.links.queue d q hq).2.1]
  · intro q hin
    simp only [State.goto] at hin ⊢
    by_cases hq : q = s.queues
    · subst hq
      simp [Mq.create] at hin
    · rw [update_of_ne hq] at hin ⊢
      exact hs.rest q hin
  · intro q
    obtain ⟨hle, hpos⟩ := hs.freed q
    refine ⟨hle, fun hq => ?_⟩
    obtain ⟨hlt, hrelease⟩ := hpos hq
    simp only [State.goto]
    rw [hmq hlt]
    exact ⟨Nat.lt_succ_of_lt hlt, hrelease⟩
  · refine ⟨l, hl.goto rfl hl.list fun q => ?_⟩
    have hbefore : Pc.holds q (s.pc t) = 0 := by rw [hpc]; rfl
    rw [hbefore]
    by_cases hq : q = s.queues
    · subst hq
      have hfreed : s.freed s.queues = 0 := by
        by_contra hne
        exact absurd ((hs.freed _).2 (Nat.pos_of_ne_zero hne)).1 (lt_irrefl _)
      simp [Pc.holds, Pc.held, due, Mq.create, hfreed]
    · have hlt : q < s.queues + 1 ↔ q < s.queues := by
        rw [Nat.lt_succ_iff_lt_or_eq]
        exact or_iff_left hq
      simp [Pc.holds, Pc.held, due, hlt, update_of_ne hq,
        Ne.symm hq]

/-- A queue that was at rest joins the global queue; one that was not stays
where it is. -/
theorem Placed.send
    {l : List Mq} (hl : Placed s l) (hpc : s₁.pc = s.pc)
    (hq : q < s.queues) (hfreed : s.freed q = 0)
    (hrelease : (s.mq q).release = false)
    (hglobal : if (s.mq q).inGlobal then s₁.global = s.global
      else Joined s.global q s₁.global)
    (hdue : s₁.due q = 1) (hother : ∀ q', q' ≠ q → s₁.due q' = s.due q')
    (hheld : p.held = (s.pc t).held) : ∃ l', Placed (s₁.goto t p) l' := by
  cases hin : (s.mq q).inGlobal with
  | true =>
      rw [hin] at hglobal
      have hsame : s₁.global = s.global := hglobal
      refine ⟨l, hl.goto hpc (hsame ▸ hl.list) fun q' => ?_⟩
      rw [holds_of_held hheld]
      by_cases hqq : q' = q
      · subst hqq
        rw [hdue, due, if_pos ⟨hq, hfreed, .inl hin⟩]
      · rw [hother q' hqq]
  | false =>
      rw [hin] at hglobal
      obtain ⟨-, hjoin⟩ : Joined s.global q s₁.global := hglobal
      have hzero : s.due q = 0 := by
        rw [due, if_neg]
        rintro ⟨-, -, hflag | hflag⟩
        · rw [hin] at hflag
          cases hflag
        · rw [hrelease] at hflag
          cases hflag
      have hmem : q ∉ l := by
        rw [← List.count_eq_zero]
        have := hl.count q
        omega
      refine ⟨l ++ [q], hl.goto hpc (hjoin ▸ hl.list.push hmem) fun q' => ?_⟩
      rw [holds_of_held hheld, List.count_append]
      by_cases hqq : q' = q
      · subst hqq
        rw [hdue, hzero, List.count_singleton_self]
        omega
      · rw [hother q' hqq, List.count_singleton, if_neg (by simpa using Ne.symm hqq)]
        omega

variable {global : LinkedQueue Mq} {mq : Mq.Queue}

/-- One queue gets new flags and maybe joins the global queue; nothing else
changes but the position. -/
theorem Ownership.flags
    (hs : Ownership s)
    (hcounted : Counted (State.goto
      { s with global, mq := update s.mq q mq } t p))
    (hnumbered : Numbered (State.goto
      { s with global, mq := update s.mq q mq } t p))
    (hhandle : mq.handle = (s.mq q).handle)
    (hrelease : (s.mq q).release = true → mq.release = true)
    (hopening : p.opening = (s.pc t).opening)
    (hserving : ∀ q c, p.serving = some (q, c) → s.queue c = some q)
    (hdropping : ∀ q', p.dropping = some q' →
      (update s.mq q mq q').release = true)
    (hmarks : ∀ c, Pc.deletes c p +
        marked { s with global, mq := update s.mq q mq } c =
      Pc.deletes c (s.pc t) + s.marked c)
    (hrest : mq.inGlobal = false → ¬ mq.Pending)
    (hplaced : ∃ l, Placed (State.goto
      { s with global, mq := update s.mq q mq } t p) l) :
    Ownership (State.goto
      { s with global, mq := update s.mq q mq } t p) where
  counted := hcounted
  numbered := hnumbered
  links := by
    refine hs.links.goto rfl rfl rfl rfl rfl (fun q' => ?_) hopening
    by_cases hqq : q' = q
    · subst hqq
      simpa using hhandle
    · simp only [update_of_ne hqq]
  pcs := by
    refine hs.pcs.goto rfl (fun _ _ h => h) ?_ hserving hdropping
    intro t' q' _ h
    dsimp only
    by_cases hqq : q' = q
    · subst hqq
      rw [update_self]
      exact hrelease h
    · rwa [update_of_ne hqq]
  marks := by
    refine hs.marks.goto rfl fun c => ?_
    rw [hmarks c]
  rest := by
    intro q' hin
    simp only [State.goto] at hin ⊢
    by_cases hqq : q' = q
    · subst hqq
      rw [update_self] at hin ⊢
      exact hrest hin
    · rw [update_of_ne hqq] at hin ⊢
      exact hs.rest q' hin
  freed := by
    intro q'
    obtain ⟨hle, hpos⟩ := hs.freed q'
    refine ⟨hle, fun hq => ⟨(hpos hq).1, ?_⟩⟩
    simp only [State.goto]
    by_cases hqq : q' = q
    · subst hqq
      rw [update_self]
      exact hrelease (hpos hq).2
    · rw [update_of_ne hqq]
      exact (hpos hq).2
  placed := hplaced

omit [Fintype τ] [DecidableEq τ] in
theorem due_update_of_ne
    {q' : Mq} (h : q' ≠ q) :
    due { s with global, mq := update s.mq q mq } q' = s.due q' := by
  simp only [due, update_of_ne h]

omit [Fintype τ] [DecidableEq τ] in
theorem marked_update_of_release
    (h : mq.release = (s.mq q).release) (c : Ctx) :
    marked { s with global, mq := update s.mq q mq } c =
      s.marked c := by
  refine marked_congr (c := c) rfl fun q' _ => ?_
  by_cases hqq : q' = q
  · subst hqq
    simpa using h
  · simp only [update_of_ne hqq]

theorem Ownership.mqPush
    (hs : Ownership s) {m : Message}
    (hpc : s.pc t = .push c m)
    (hq : s.queue c = some q) (hhandle : mq.handle = (s.mq q).handle)
    (hrelease : mq.release = (s.mq q).release) (hin : mq.inGlobal = true)
    (hglobal : if (s.mq q).inGlobal then global = s.global
      else Joined s.global q global)
    (hcounted : Counted (State.goto
      { s with global, mq := update s.mq q mq }
      t (.release c .done)))
    (hnumbered : Numbered (State.goto
      { s with global, mq := update s.mq q mq }
      t (.release c .done))) :
    Ownership (State.goto
      { s with global, mq := update s.mq q mq }
      t (.release c .done)) := by
  have howned : (s.pc t).owned = some c := by rw [hpc]; rfl
  have hmark := hs.release_of_ref (hs.counted.ref_pos_of_owned howned) hq
  obtain ⟨-, hlt, -⟩ := hs.links.queue c q hq
  have hfreed := hs.freed_of_release hmark
  refine hs.flags hcounted hnumbered hhandle (fun h => hrelease.trans h)
    (by rw [hpc]; rfl) nofun nofun ?_ ?_ ?_
  · intro d
    rw [marked_update_of_release hrelease, hpc]
    rfl
  · intro h
    rw [hin] at h
    cases h
  · obtain ⟨l, hl⟩ := hs.placed
    refine hl.send rfl hlt hfreed hmark hglobal ?_
      (fun _ => due_update_of_ne) (by rw [hpc]; rfl)
    simp [due, hlt, hfreed, hin]

theorem Ownership.mark
    (hs : Ownership s) {k : After}
    (hpc : s.pc t = .delete c k) (hq : s.queue c = some q)
    (hrelease : (s.mq q).release = false)
    (hglobal : if (s.mq q).inGlobal then global = s.global
      else Joined s.global q global)
    (hcounted : Counted (State.goto
      { s with
        global
        mq := update s.mq q { s.mq q with release := true } }
      t (resume none k)))
    (hnumbered : Numbered (State.goto
      { s with
        global
        mq := update s.mq q { s.mq q with release := true } }
      t (resume none k))) :
    Ownership (State.goto
      { s with
        global
        mq := update s.mq q { s.mq q with release := true } }
      t (resume none k)) := by
  obtain ⟨-, hlt, -⟩ := hs.links.queue c q hq
  have hfreed := hs.freed_of_release hrelease
  refine hs.flags hcounted hnumbered rfl (fun _ => rfl)
    (by rw [hpc]; exact resume_opening ..) ?_ ?_ ?_ ?_ ?_
  · rw [resume_serving]
    nofun
  · rw [resume_dropping]
    nofun
  · intro d
    have hafter : Pc.deletes d (resume none k) = 0 := by
      rw [Pc.deletes, resume_deleting]
      rfl
    have hbefore : Pc.deletes d (s.pc t) = if c = d then 1 else 0 := by
      rw [hpc, Pc.deletes, Pc.deleting]
      simp
    rw [hafter, hbefore]
    by_cases hd : c = d
    · subst hd
      simp [marked, hq, hrelease]
    · rw [if_neg hd]
      congr 1
      refine marked_congr rfl fun q' hq' => ?_
      have hne : q' ≠ q := by
        rintro rfl
        exact hd (hs.links.queue_inj hq hq')
      simp only [update_of_ne hne]
  · exact hs.rest q
  · obtain ⟨l, hl⟩ := hs.placed
    refine hl.send rfl hlt hfreed hrelease hglobal ?_
      (fun _ => due_update_of_ne) (by rw [hpc]; exact resume_held ..)
    simp [due, hlt, hfreed]

/-- A worker that finds its queue empty puts it to rest. -/
theorem Ownership.popEmpty
    (hs : Ownership s) {i n : ℕ}
    (hpc : s.pc t = .dispatchPop q c i n)
    (hempty : (s.mq q).pop = some (none, mq))
    (hcounted : Counted (State.goto
      { s with mq := update s.mq q mq }
      t (.release c .dispatchNext)))
    (hnumbered : Numbered (State.goto
      { s with mq := update s.mq q mq }
      t (.release c .dispatchNext))) :
    Ownership (State.goto
      { s with mq := update s.mq q mq }
      t (.release c .dispatchNext)) := by
  have hserving : (s.pc t).serving = some (q, c) := by rw [hpc]; rfl
  have hq := hs.pcs.serving t q c hserving
  have hrelease := hs.release_of_ref
    (hs.counted.ref_pos_of_owned (Pc.owned_of_serving hserving)) hq
  obtain ⟨hnone, hmq⟩ := Mq.Queue.pop_none hempty
  have hflag : mq.release = (s.mq q).release := by rw [hmq]
  subst hmq
  refine hs.flags hcounted hnumbered rfl id (by rw [hpc]; rfl) nofun nofun ?_
    (fun _ => hnone) ?_
  · intro d
    rw [marked_update_of_release hflag, hpc]
    rfl
  · obtain ⟨l, hl⟩ := hs.placed
    obtain ⟨-, hlt, hfreed, hflags⟩ :=
      hl.held_due (Pc.held_of_serving hserving)
    have hin : (s.mq q).inGlobal = true :=
      hflags.resolve_right (by rw [hrelease]; nofun)
    refine ⟨l, hl.goto rfl hl.list fun q' => ?_⟩
    rw [hpc]
    by_cases hqq : q' = q
    · subst hqq
      simp [due, hlt, hfreed, hin, hrelease, Pc.holds, Pc.held, After.held]
    · rw [due_update_of_ne hqq]
      simp [Pc.holds, Pc.held, After.held, Ne.symm hqq]

/-- The queue that is being dropped stays with the activation that drops
it. -/
theorem Ownership.dropEmpty
    (hs : Ownership s) {k : After}
    (hpc : s.pc t = .dropQueue q k) (hempty : (s.mq q).pop = some (none, mq))
    (hcounted : Counted (State.goto
      { s with mq := update s.mq q mq }
      t (.freeQueue q k)))
    (hnumbered : Numbered (State.goto
      { s with mq := update s.mq q mq }
      t (.freeQueue q k))) :
    Ownership (State.goto
      { s with mq := update s.mq q mq }
      t (.freeQueue q k)) := by
  have hdropping : (s.pc t).dropping = some q := by rw [hpc]; rfl
  have hrelease := hs.pcs.dropping t q hdropping
  obtain ⟨hnone, hmq⟩ := Mq.Queue.pop_none hempty
  have hflag : mq.release = (s.mq q).release := by rw [hmq]
  subst hmq
  refine hs.flags hcounted hnumbered rfl id (by rw [hpc]; rfl) nofun ?_ ?_
    (fun _ => hnone) ?_
  · intro q' hq'
    cases hq'
    rw [update_self]
    exact hrelease
  · intro d
    rw [marked_update_of_release hflag, hpc]
    rfl
  · obtain ⟨l, hl⟩ := hs.placed
    obtain ⟨-, hdue⟩ := hl.held_due (Pc.held_of_dropping hdropping)
    refine ⟨l, hl.goto rfl hl.list fun q' => ?_⟩
    rw [hpc]
    by_cases hqq : q' = q
    · subst hqq
      simp [due, hdue, hrelease, Pc.holds, Pc.held]
    · rw [due_update_of_ne hqq]
      rfl

theorem Ownership.free
    (hs : Ownership s) {k : After} (hpc : s.pc t = .freeQueue q k)
    (hcounted : Counted (State.goto
      { s with freed := update s.freed q (s.freed q + 1) }
      t (resume none k)))
    (hnumbered : Numbered (State.goto
      { s with freed := update s.freed q (s.freed q + 1) }
      t (resume none k))) :
    Ownership (State.goto
      { s with freed := update s.freed q (s.freed q + 1) }
      t (resume none k)) := by
  obtain ⟨l, hl⟩ := hs.placed
  have hdropping : (s.pc t).dropping = some q := by rw [hpc]; rfl
  have hrelease := hs.pcs.dropping t q hdropping
  obtain ⟨-, hdue⟩ := hl.held_due (Pc.held_of_dropping hdropping)
  refine ⟨hcounted, hnumbered, ?_, ?_, ?_, hs.rest, ?_, l, ?_⟩
  · exact hs.links.goto rfl rfl rfl rfl rfl (fun _ => rfl)
      (by rw [hpc]; exact resume_opening ..)
  · refine hs.pcs.goto rfl (fun _ _ h => h) (fun _ _ _ h => h) ?_ ?_
    · rw [resume_serving]
      nofun
    · rw [resume_dropping]
      nofun
  · refine hs.marks.goto rfl fun d => ?_
    have hafter : Pc.deletes d (resume none k) = 0 := by
      rw [Pc.deletes, resume_deleting]
      rfl
    rw [hafter, hpc]
    rfl
  · intro q'
    simp only [State.goto]
    by_cases hqq : q' = q
    · subst hqq
      rw [update_self, hdue.2.1]
      exact ⟨le_refl 1, fun _ => ⟨hdue.1, hrelease⟩⟩
    · rw [update_of_ne hqq]
      exact hs.freed q'
  · refine hl.goto rfl hl.list fun q' => ?_
    have hbefore : Pc.holds q' (s.pc t) =
        Pc.holds q' (resume none k) + if q = q' then 1 else 0 := by
      rw [hpc, Pc.holds, Pc.holds, resume_held, Pc.held, List.count_cons]
      simp
    rw [hbefore]
    by_cases hqq : q' = q
    · subst hqq
      simp [due, hdue]
      omega
    · simp [due, update_of_ne hqq, Ne.symm hqq]

/-- A queue is handed from an activation to the global queue. -/
theorem Ownership.globalPush
    (hs : Ownership s)
    (hheld : (s.pc t).held = q :: p.held)
    (hdeleting : (s.pc t).deleting = none ∧ p.deleting = none)
    (hopening : (s.pc t).opening = none ∧ p.opening = none)
    (hserving : p.serving = none) (hdrop : p.dropping = none)
    (hglobal : Joined s.global q global)
    (hcounted : Counted (State.goto { s with global } t p))
    (hnumbered : Numbered (State.goto { s with global } t p)) :
    Ownership (State.goto { s with global } t p) := by
  obtain ⟨l, hl⟩ := hs.placed
  obtain ⟨hmem, -⟩ := hl.held_due (t := t) (q := q)
    (by rw [hheld]; exact List.mem_cons_self)
  obtain ⟨-, rfl⟩ := hglobal
  refine ⟨hcounted, hnumbered, ?_, ?_, ?_, hs.rest, hs.freed, l ++ [q], ?_⟩
  · exact hs.links.goto rfl rfl rfl rfl rfl (fun _ => rfl)
      (hopening.2.trans hopening.1.symm)
  · refine hs.pcs.goto rfl (fun _ _ h => h) (fun _ _ _ h => h) ?_ ?_
    · rw [hserving]
      nofun
    · rw [hdrop]
      nofun
  · refine hs.marks.goto rfl fun d => ?_
    rw [deletes_of_deleting (hdeleting.2.trans hdeleting.1.symm)]
    rfl
  · refine hl.goto rfl (hl.list.push hmem) fun q' => ?_
    have hsame : due { s with global := s.global.push q } q' = s.due q' := rfl
    rw [hsame, Pc.holds, Pc.holds, hheld]
    simp only [List.count_append, List.count_cons, List.count_nil]
    omega

/-- A worker takes the first queue of the global queue. -/
theorem Ownership.globalPop
    (hs : Ownership s) (hheld : p.held = (s.pc t).held ++ [q])
    (hdeleting : (s.pc t).deleting = none ∧ p.deleting = none)
    (hopening : (s.pc t).opening = none ∧ p.opening = none)
    (hserving : p.serving = (s.pc t).serving) (hdrop : p.dropping = none)
    (hhead : s.global.head = some q)
    (hcounted : Counted
      (State.goto { s with global := s.global.unlink q } t p))
    (hnumbered : Numbered
      (State.goto { s with global := s.global.unlink q } t p)) :
    Ownership (State.goto { s with global := s.global.unlink q } t p) := by
  obtain ⟨l, hl⟩ := hs.placed
  obtain ⟨l', rfl⟩ := hl.list.eq_cons hhead
  refine ⟨hcounted, hnumbered, ?_, ?_, ?_, hs.rest, hs.freed, l', ?_⟩
  · exact hs.links.goto rfl rfl rfl rfl rfl (fun _ => rfl)
      (hopening.2.trans hopening.1.symm)
  · refine hs.pcs.goto rfl (fun _ _ h => h) (fun _ _ _ h => h) ?_ ?_
    · intro q' c hc
      exact hs.pcs.serving t q' c (hserving.symm.trans hc)
    · rw [hdrop]
      nofun
  · refine hs.marks.goto rfl fun d => ?_
    rw [deletes_of_deleting (hdeleting.2.trans hdeleting.1.symm)]
    rfl
  · refine hl.goto rfl hl.list.unlink fun q' => ?_
    have hsame : due { s with global := s.global.unlink q } q' = s.due q' :=
      rfl
    rw [hsame, Pc.holds, Pc.holds, hheld]
    simp only [List.count_append, List.count_cons, List.count_nil]
    omega

omit [Fintype τ] [DecidableEq τ] in
theorem numberedInTime_of_lockDelimited
    {act : Act} (hlock : s.LockDelimited (t, act)) (hpc : s.pc t = .idle) :
    s.NumberedInTime (t, act) := by
  cases act with
  | new =>
      intro _ t' c h ht' _
      have hne : t' ≠ t := by
        rintro rfl
        rw [hpc] at ht'
        cases ht'
      have hopen := hlock t' hne
      rw [Pc.opening_of_unnumbered ht'] at hopen
      cases hopen
  | _ => trivial

/-- Every step at the granularity of the locks keeps the invariant. -/
theorem Ownership.move
    (hs : Ownership s) {act : Act} (hlock : s.LockDelimited (t, act))
    (hfresh : s.HandlesFresh (t, act)) (hmove : Move t act s s') :
    Ownership s' := by
  have hcounted := hs.counted.move hmove
  have hnumbered := hs.numbered.move
    (numberedInTime_of_lockDelimited hlock) hmove
  cases hmove with
  | quiet init endless cb mq p hsame hdrop hlaunched hmq =>
      refine hs.goto hcounted hnumbered ?_ rfl rfl rfl rfl rfl rfl hmq
        hsame.held hsame.deleting ?_ ?_
      · exact hs.links.goto rfl rfl rfl rfl rfl (fun q => (hmq q).handle)
          hsame.opening
      · intro q c hc
        rcases hsame.serving with heq | hnone
        · exact hs.pcs.serving t q c (heq.symm.trans hc)
        · rw [hnone] at hc
          cases hc
      · intro q hq
        rcases hdrop q hq with hq | hrelease
        · exact hs.pcs.dropping t q hq
        · exact hrelease
  | grabCall h c p hpc hp hfind =>
      obtain rfl | ⟨m, rfl⟩ := hp
      · exact hs.goto hcounted hnumbered
          (hs.links.goto rfl rfl rfl rfl rfl (fun _ => rfl) (by rw [hpc]; rfl))
          rfl rfl rfl rfl rfl rfl (fun _ => .refl _) (by rw [hpc]; rfl)
          (by rw [hpc]; rfl) nofun nofun
      · exact hs.goto hcounted hnumbered
          (hs.links.goto rfl rfl rfl rfl rfl (fun _ => rfl) (by rw [hpc]; rfl))
          rfl rfl rfl rfl rfl rfl (fun _ => .refl _) (by rw [hpc]; rfl)
          (by rw [hpc]; rfl) nofun nofun
  | grabDispatch q c hpc hfind =>
      refine hs.goto hcounted hnumbered
        (hs.links.goto rfl rfl rfl rfl rfl (fun _ => rfl) (by rw [hpc]; rfl))
        rfl rfl rfl rfl rfl rfl (fun _ => .refl _) (by rw [hpc]; rfl)
        (by rw [hpc]; rfl) ?_ nofun
      intro q' c' hc'
      cases hc'
      exact hs.grab_queue hlock hpc hfind
  | register storage h hact hpc hreg =>
      exact hs.goto hcounted hnumbered
        (hs.links.register hs.numbered hfresh hact hpc hreg hnumbered)
        rfl rfl rfl rfl rfl rfl (fun _ => .refl _) (by rw [hpc]; rfl)
        (by rw [hpc]; rfl) nofun nofun
  | store c h hpc | retire h k c storage hpc hretire =>
      exact hs.goto hcounted hnumbered
        (hs.links.goto rfl rfl rfl rfl rfl (fun _ => rfl) (by rw [hpc]; rfl))
        rfl rfl rfl rfl rfl rfl (fun _ => .refl _) (by rw [hpc]; rfl)
        (by rw [hpc]; rfl) nofun nofun
  | create c memory hpc => exact hs.create hlock hpc hcounted hnumbered
  | releaseLast c k hpc hlast =>
      exact hs.releaseLast hpc rfl hcounted hnumbered
  | releaseShared c k hpc hmore =>
      refine hs.goto hcounted hnumbered
        (hs.links.goto rfl rfl rfl rfl rfl (fun _ => rfl)
          (by rw [hpc]; exact resume_opening ..))
        rfl rfl rfl rfl rfl rfl (fun _ => .refl _)
        (by rw [hpc]; exact resume_held ..)
        (by rw [hpc]; exact resume_deleting ..) ?_ ?_
      · rw [resume_serving]
        nofun
      · rw [resume_dropping]
        nofun
  | mark c k q global hpc hq hrelease hglobal =>
      exact hs.mark hpc hq hrelease hglobal hcounted hnumbered
  | mqPush c m q mq global hpc hq hhandle hrelease hin hvalid hglobal =>
      exact hs.mqPush hpc hq hhandle hrelease hin hglobal hcounted hnumbered
  | globalPush q p global hheld howned hdeleting hopening hnumber hserving
      hdrop hlaunched hglobal =>
      exact hs.globalPush hheld hdeleting hopening hserving hdrop hglobal
        hcounted hnumbered
  | globalPop q p hheld howned hdeleting hopening hnumber hserving hdrop
      hlaunched hhead =>
      exact hs.globalPop hheld hdeleting hopening hserving hdrop hhead
        hcounted hnumbered
  | popEmpty q c i n mq hpc hempty =>
      exact hs.popEmpty hpc hempty hcounted hnumbered
  | dropEmpty q k mq hpc hempty =>
      exact hs.dropEmpty hpc hempty hcounted hnumbered
  | free q k hpc hnext => exact hs.free hpc hcounted hnumbered

end Steps

end State

end SkynetServer.Service
