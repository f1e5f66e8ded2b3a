import SkynetServer.Handle.Slots
import SkynetServer.Service.Ledger
import SkynetServer.Support.Census

/-!
# Reference counts of contexts

The count of a context is the number of its owners: the slot of the table,
its creator, and every activation that has grabbed it.  This holds in every
run, and so `delete_context` is entered once, when the last owner lets go.

The creator of a context uses it after it has given up its reference, for
`ctx->init = true` and for the launch report.  All other uses are by owners.
-/

namespace SkynetServer.Service

open Handle (Ctx HandleStorage OneSlot)
open Function Transition

/-- References to the context that an activation owns. -/
def Pc.refs (c : Ctx) (p : Pc) : ℕ := if p.owned = some c then 1 else 0

namespace State

variable {τ : Type*} [Fintype τ]

/-- The owners of a context: its slot and the activations. -/
def owners (s : State τ) (c : Ctx) : ℕ :=
  s.storage.slotCount c + Census.total Finset.univ (Pc.refs c) s.pc

/-- Counts are numbers of owners, and a context is deleted once its count has
reached `0`. -/
structure Counted (s : State τ) : Prop where
  slots : OneSlot s.storage
  allocated : ∀ c, s.storage.Holds c → c < s.contexts
  fresh : ∀ c, s.contexts ≤ c → s.ref c = 0
  ref : ∀ c, s.ref c = s.owners c
  deleted : ∀ c,
    s.deleted c = if c < s.contexts ∧ s.ref c = 0 then 1 else 0

variable {s s₁ s' : State τ} {t : τ} {p : Pc} {c : Ctx}

theorem counted_start (harbor : ℕ) : Counted (start harbor : State τ) where
  slots := Handle.oneSlot_handleInit harbor
  allocated := by
    rintro c ⟨i, hi⟩
    cases hi
  fresh := fun _ _ => rfl
  ref := by
    intro c
    have hslot : (start harbor : State τ).storage.slotCount c = 0 := by
      apply Handle.slotCount_of_not_holds
      rintro ⟨i, hi⟩
      cases hi
    have htotal : Census.total Finset.univ (Pc.refs c)
        (start harbor : State τ).pc = 0 :=
      Census.total_eq_zero fun _ _ => rfl
    rw [owners, hslot, htotal]
    rfl
  deleted := by
    intro c
    rw [if_neg]
    · rfl
    · rintro ⟨hlt, -⟩
      exact absurd hlt (Nat.not_lt_zero c)

theorem Counted.ref_pos_of_holds (hs : Counted s) (h : s.storage.Holds c) :
    0 < s.ref c := by
  rw [hs.ref, owners, hs.slots.slotCount_of_holds h]
  omega

theorem Counted.ref_pos_of_owned
    (hs : Counted s) (h : (s.pc t).owned = some c) : 0 < s.ref c := by
  have hle : Pc.refs c (s.pc t) ≤ Census.total Finset.univ (Pc.refs c) s.pc :=
    Census.le_total (Finset.mem_univ t)
  rw [Pc.refs, if_pos h] at hle
  rw [hs.ref, owners]
  omega

theorem Counted.lt_contexts (hs : Counted s) (h : 0 < s.ref c) :
    c < s.contexts := by
  by_contra hge
  have := hs.fresh c (Nat.le_of_not_lt hge)
  omega

variable [DecidableEq τ]

/-- The balance of one step, for one context. -/
theorem ref_goto
    (hpc : s₁.pc = s.pc) (hb : s.ref c = s.owners c)
    (h : s₁.ref c + Pc.refs c (s.pc t) + s.storage.slotCount c =
      s.ref c + Pc.refs c p + s₁.storage.slotCount c) :
    (s₁.goto t p).ref c = (s₁.goto t p).owners c := by
  have htotal := Census.total_update (Pc.refs c) s.pc (Finset.mem_univ t) p
  have hgoto : (s₁.goto t p).pc = update s.pc t p := by
    rw [← hpc]
    rfl
  rw [owners, hgoto]
  rw [owners] at hb
  change s₁.ref c = (s₁.storage.slotCount c + _ : ℕ)
  omega

/-- A step that changes neither counts nor slots nor what `t` owns. -/
theorem Counted.goto
    (hs : Counted s) (hpc : s₁.pc = s.pc) (hstorage : s₁.storage = s.storage)
    (hcontexts : s₁.contexts = s.contexts) (href : s₁.ref = s.ref)
    (hdeleted : s₁.deleted = s.deleted) (howned : p.owned = (s.pc t).owned) :
    Counted (s₁.goto t p) where
  slots := hstorage ▸ hs.slots
  allocated := by
    intro c hc
    exact hcontexts ▸ hs.allocated c (hstorage ▸ hc)
  fresh := by
    intro c hc
    exact (congrFun href c).trans (hs.fresh c (hcontexts ▸ hc))
  ref := by
    intro c
    apply ref_goto hpc (hs.ref c)
    rw [href, hstorage, Pc.refs, Pc.refs, howned]
  deleted := by
    intro c
    change s₁.deleted c = if c < s₁.contexts ∧ s₁.ref c = 0 then 1 else 0
    rw [hdeleted, hcontexts, href]
    exact hs.deleted c

/-- An activation that owns nothing takes a reference. -/
theorem Counted.grab
    (hs : Counted s) {h : ℕ}
    (hfind : Handle.handleFind s.handle s.storage h = some c)
    (hnone : (s.pc t).owned = none) (howned : p.owned = some c) :
    Counted (State.goto
      { s with ref := update s.ref c (s.ref c + 1) } t p) := by
  have hholds : s.storage.Holds c := ⟨_, (Handle.handleFind_some hfind).1⟩
  have hpos := hs.ref_pos_of_holds hholds
  have hlt := hs.allocated c hholds
  refine ⟨hs.slots, hs.allocated, ?_, ?_, ?_⟩
  · intro d hd
    have hne : d ≠ c := by
      rintro rfl
      exact absurd hlt (Nat.not_lt_of_le hd)
    exact (update_of_ne hne _ _).trans (hs.fresh d hd)
  · intro d
    refine ref_goto (s := s) (t := t) (by rfl) (hs.ref d) ?_
    rw [Pc.refs, Pc.refs, hnone, howned]
    by_cases hd : d = c
    · subst hd
      simp
    · simp [update_of_ne hd, Ne.symm hd]
  · intro d
    by_cases hd : d = c
    · subst hd
      have := hs.deleted d
      simp only [State.goto, update_self]
      rw [this, if_neg (by omega), if_neg (by omega)]
    · simp only [State.goto, update_of_ne hd]
      exact hs.deleted d

theorem Counted.register
    (hs : Counted s) {storage : HandleStorage} {h : ℕ}
    (hnone : (s.pc t).owned = none)
    (hreg : Handle.handleRegister s.handle s.storage s.contexts =
      .ok (storage, h))
    {init endless cb : Ctx → Bool} {handle issued : Ctx → ℕ} :
    Counted (State.goto
      { s with
        storage, init, endless, cb, handle, issued
        contexts := s.contexts + 1
        ref := update s.ref s.contexts 2 }
      t (.newHandle s.contexts h)) := by
  have hnew : ¬ s.storage.Holds s.contexts := by
    intro hholds
    exact absurd (hs.allocated _ hholds) (lt_irrefl _)
  obtain ⟨hone, hholds⟩ := Handle.handleRegister_holds hs.slots hnew hreg
  have hcount : ∀ d, d ≠ s.contexts →
      storage.slotCount d = s.storage.slotCount d := by
    intro d hd
    by_cases hheld : s.storage.Holds d
    · rw [hone.slotCount_of_holds ((hholds d).mpr (.inr hheld)),
        hs.slots.slotCount_of_holds hheld]
    · rw [Handle.slotCount_of_not_holds hheld,
        Handle.slotCount_of_not_holds (by simp [hholds, hd, hheld])]
  have hzero : s.ref s.contexts = 0 := hs.fresh _ (le_refl _)
  refine ⟨hone, ?_, ?_, ?_, ?_⟩
  · intro d hd
    rcases (hholds d).mp hd with rfl | hd
    · exact Nat.lt_succ_self _
    · exact Nat.lt_succ_of_lt (hs.allocated d hd)
  · intro d hd
    have hd : s.contexts + 1 ≤ d := hd
    have hlt : s.contexts ≠ d := by omega
    exact (update_of_ne hlt.symm _ _).trans (hs.fresh d (by omega))
  · intro d
    refine ref_goto (s := s) (t := t) (by rfl) (hs.ref d) ?_
    have howned : (Pc.newHandle s.contexts h).owned = some s.contexts := rfl
    rw [Pc.refs, Pc.refs, hnone, howned]
    by_cases hd : d = s.contexts
    · subst hd
      rw [hone.slotCount_of_holds ((hholds _).mpr (.inl rfl)),
        Handle.slotCount_of_not_holds hnew, hzero]
      simp
    · simp [update_of_ne hd, Ne.symm hd, hcount d hd]
  · intro d
    have hdel := hs.deleted d
    by_cases hd : d = s.contexts
    · subst hd
      rw [if_neg (fun h => lt_irrefl _ h.1)] at hdel
      simpa [State.goto] using hdel
    · simp only [State.goto, update_of_ne hd]
      rw [hdel]
      have hiff : d < s.contexts + 1 ↔ d < s.contexts := by
        rw [Nat.lt_succ_iff_lt_or_eq]
        exact or_iff_left hd
      simp only [hiff]

theorem Counted.retire
    (hs : Counted s) {storage : HandleStorage} {h : ℕ}
    (hnone : (s.pc t).owned = none) (howned : p.owned = some c)
    (hretire : Handle.handleRetire s.handle s.storage h = (storage, some c))
    {retired : Ctx → Bool} :
    Counted (State.goto { s with storage, retired } t p) := by
  obtain ⟨hone, hc, hholds⟩ := Handle.handleRetire_holds hs.slots hretire
  refine ⟨hone, fun d hd => hs.allocated d ((hholds d).mp hd).2, hs.fresh,
    ?_, hs.deleted⟩
  intro d
  refine ref_goto (s := s) (t := t) (by rfl) (hs.ref d) ?_
  rw [Pc.refs, Pc.refs, hnone, howned]
  by_cases hd : d = c
  · subst hd
    rw [hs.slots.slotCount_of_holds hc,
      Handle.slotCount_of_not_holds (by simp [hholds])]
    simp
  · have hsame : storage.slotCount d = s.storage.slotCount d := by
      by_cases hheld : s.storage.Holds d
      · rw [hone.slotCount_of_holds ((hholds d).mpr ⟨hd, hheld⟩),
          hs.slots.slotCount_of_holds hheld]
      · rw [Handle.slotCount_of_not_holds hheld,
          Handle.slotCount_of_not_holds (by simp [hholds, hheld])]
    simp [hsame, Ne.symm hd]

/-- The balance of a release, whether or not it is the last one. -/
theorem Counted.release_ref
    (hs : Counted s) (howned : (s.pc t).owned = some c)
    (hnone : p.owned = none) (deleted : Ctx → ℕ) (d : Ctx) :
    (State.goto
      { s with ref := update s.ref c (s.ref c - 1), deleted }
      t p).ref d =
      (State.goto
      { s with ref := update s.ref c (s.ref c - 1), deleted }
      t p).owners d := by
  refine ref_goto (s := s) (t := t) (by rfl) (hs.ref d) ?_
  rw [Pc.refs, Pc.refs, howned, hnone]
  by_cases hd : d = c
  · subst hd
    simp
  · simp [update_of_ne hd, Ne.symm hd]

theorem Counted.releaseLast
    (hs : Counted s) (howned : (s.pc t).owned = some c)
    (hnone : p.owned = none) (hlast : s.ref c - 1 = 0) :
    Counted (State.goto
      { s with
        ref := update s.ref c (s.ref c - 1)
        deleted := update s.deleted c (s.deleted c + 1) } t p) := by
  have hlt := hs.lt_contexts (hs.ref_pos_of_owned howned)
  refine ⟨hs.slots, hs.allocated, ?_,
    fun d => hs.release_ref howned hnone _ d, ?_⟩
  · intro d hd
    have hne : d ≠ c := by
      rintro rfl
      exact absurd hlt (Nat.not_lt_of_le hd)
    exact (update_of_ne hne _ _).trans (hs.fresh d hd)
  · intro d
    have hdel := hs.deleted d
    by_cases hd : d = c
    · subst hd
      rw [if_neg (by omega)] at hdel
      simp [State.goto, hlast, hdel, hlt]
    · simpa [State.goto, update_of_ne hd] using hdel

theorem Counted.releaseShared
    (hs : Counted s) (howned : (s.pc t).owned = some c)
    (hnone : p.owned = none) (hmore : s.ref c - 1 ≠ 0) :
    Counted (State.goto
      { s with ref := update s.ref c (s.ref c - 1) } t p) := by
  have hpos := hs.ref_pos_of_owned howned
  have hlt := hs.lt_contexts hpos
  refine ⟨hs.slots, hs.allocated, ?_,
    fun d => hs.release_ref howned hnone _ d, ?_⟩
  · intro d hd
    have hne : d ≠ c := by
      rintro rfl
      exact absurd hlt (Nat.not_lt_of_le hd)
    exact (update_of_ne hne _ _).trans (hs.fresh d hd)
  · intro d
    have hdel := hs.deleted d
    by_cases hd : d = c
    · subst hd
      rw [if_neg (by omega)] at hdel
      simp [State.goto, hmore, hdel]
    · simpa [State.goto, update_of_ne hd] using hdel

/-- Every step keeps the counts right. -/
theorem Counted.move
    (hs : Counted s) {act : Act} (hmove : Move t act s s') :
    Counted s' := by
  cases hmove with
  | quiet init endless cb mq p hsame =>
      exact hs.goto rfl rfl rfl rfl rfl hsame.owned
  | grabCall h c p hpc hp hfind =>
      refine hs.grab hfind (by rw [hpc]; rfl) ?_
      rcases hp with rfl | ⟨m, rfl⟩ <;> rfl
  | grabDispatch q c hpc hfind =>
      exact hs.grab hfind (by rw [hpc]; rfl) rfl
  | register storage h hact hpc hreg =>
      exact hs.register (by rw [hpc]; rfl) hreg
  | store c h hpc | create c memory hpc | mqPush c m q mq global hpc
  | popEmpty q c i n _ hpc | dropEmpty q k _ hpc =>
      exact hs.goto rfl rfl rfl rfl rfl (by rw [hpc]; rfl)
  | releaseLast c k hpc hlast =>
      exact hs.releaseLast (by rw [hpc]; rfl) rfl hlast
  | releaseShared c k hpc hmore =>
      exact hs.releaseShared (by rw [hpc]; rfl) (resume_owned ..) hmore
  | mark c k q global hpc | free q k hpc =>
      exact hs.goto rfl rfl rfl rfl rfl
        (by rw [hpc]; exact resume_owned ..)
  | retire h k c storage hpc hretire =>
      exact hs.retire (by rw [hpc]; rfl) rfl hretire
  | globalPush q p global hheld howned | globalPop q p hheld howned =>
      exact hs.goto rfl rfl rfl rfl rfl howned

theorem counted_of_reaches
    {weight : τ → ℤ} {ok : State τ → τ × Act → Prop} {harbor : ℕ}
    (hr : Reaches (step weight) ok (start harbor) s) : Counted s :=
  hr.invariant Counted (counted_start harbor)
    fun _ _ _ hs _ hstep => hs.move (move_of_step hstep)

/-! ## Uses of a context -/

/-- The contexts of which a step reads or writes a field, `delete_context`
apart.  A registration may read the handles of all contexts in the table. -/
def Accesses (s : State τ) : τ × Act → Ctx → Prop
  | (t, act), c =>
    match s.pc t, act with
    | .idle, .push h _ | .idle, .endless h | .retire h _, .go =>
      s.storage.slot (s.storage.hash h) = some c
    | .dispatch q, .go =>
      s.storage.slot (s.storage.hash (s.mq q).handle) = some c
    | .idle, .new => s.storage.Holds c
    | .push ctx _, .go | .endless ctx, .go | .release ctx _, .go
    | .newHandle ctx _, .go | .newQueue ctx, .memory _
    | .newInit ctx _, .initReturns _ _ | .newFailed ctx _, .go
    | .newSetInit ctx _, .go | .newLaunched ctx, .go
    | .dispatchMessage _ ctx _ _ _, .go | .dispatchDone _ ctx, .go => ctx = c
    | _, _ => False

omit [Fintype τ] [DecidableEq τ] in
theorem accesses_cases
    {act : Act} (h : s.Accesses (t, act) c) :
    s.storage.Holds c ∨ (s.pc t).owned = some c ∨
      (s.pc t).launched = some c := by
  unfold Accesses at h
  dsimp only at h
  split at h
  all_goals rename_i hpc
  all_goals first
    | exact .inl ⟨_, h⟩
    | exact .inl h
    | (subst h; exact .inr (.inl (by rw [hpc]; rfl)))
    | (subst h; exact .inr (.inr (by rw [hpc]; rfl)))
    | cases h

/-- The step does not drop the last reference of a context whose creator has
given up its own and has not returned yet. -/
def SparesLaunched (s : State τ) : τ × Act → Prop
  | (t, _) => ∀ c k, s.pc t = .release c k → s.ref c = 1 →
    ∀ t', (s.pc t').launched ≠ some c

/-- Creators that have given up their reference still find their context. -/
def LaunchedAlive (s : State τ) : Prop :=
  ∀ t c, (s.pc t).launched = some c → 0 < s.ref c

omit [Fintype τ] in
theorem LaunchedAlive.goto
    (hl : LaunchedAlive s) (hpc : s₁.pc = s.pc)
    (href : ∀ t' c, (s.pc t').launched = some c → 0 < s.ref c → 0 < s₁.ref c)
    (hp : ∀ c, p.launched = some c → 0 < s₁.ref c) :
    LaunchedAlive (s₁.goto t p) := by
  intro t' c hc
  change 0 < s₁.ref c
  simp only [State.goto, hpc] at hc
  by_cases ht : t' = t
  · subst ht
    rw [update_self] at hc
    exact hp c hc
  · rw [update_of_ne ht] at hc
    exact href t' c hc (hl t' c hc)

omit [Fintype τ] in
/-- A step that lowers no count and launches nothing. -/
theorem LaunchedAlive.goto_of_le
    (hl : LaunchedAlive s) (hpc : s₁.pc = s.pc) (href : ∀ c, s.ref c ≤ s₁.ref c)
    (hp : ∀ c, p.launched = some c → (s.pc t).launched = some c) :
    LaunchedAlive (s₁.goto t p) := by
  refine hl.goto hpc (fun _ c _ hpos => hpos.trans_le (href c)) ?_
  intro c hc
  exact (hl t c (hp c hc)).trans_le (href c)

omit [Fintype τ] [DecidableEq τ] in
theorem le_update_succ (d : Ctx) :
    s.ref d ≤ update s.ref c (s.ref c + 1) d := by
  by_cases hd : d = c
  · subst hd
    rw [update_self]
    omega
  · rw [update_of_ne hd]

theorem LaunchedAlive.move
    (hl : LaunchedAlive s) (hs : Counted s) {act : Act}
    (hok : s.SparesLaunched (t, act)) (hmove : Move t act s s') :
    LaunchedAlive s' := by
  have hno : ∀ {k : After} {d : Ctx},
      (resume none k).launched = some d → (s.pc t).launched = some d := by
    intro k d hd
    cases resume_launched none k hd
  cases hmove with
  | quiet init endless cb mq p hsame hdrop hlaunched
  | globalPush q p global hheld howned hdel hopen hnum hserv hdrop hlaunched =>
      exact hl.goto_of_le rfl (fun _ => le_refl _) hlaunched
  | grabCall h c p hpc hp hfind =>
      refine hl.goto_of_le rfl le_update_succ ?_
      rcases hp with rfl | ⟨m, rfl⟩ <;> nofun
  | grabDispatch q c hpc hfind =>
      exact hl.goto_of_le rfl le_update_succ nofun
  | register storage h hact hpc hreg =>
      refine hl.goto_of_le rfl ?_ nofun
      intro d
      by_cases hd : d = s.contexts
      · subst hd
        dsimp only
        rw [update_self, hs.fresh _ (le_refl _)]
        decide
      · dsimp only
        rw [update_of_ne hd]
  | store c h hpc | create c memory hpc
  | retire h k c storage hpc hretire | mqPush c m q mq global hpc
  | popEmpty q c i n _ hpc | dropEmpty q k _ hpc =>
      exact hl.goto_of_le rfl (fun _ => le_refl _) nofun
  | releaseLast c k hpc hlast =>
      refine hl.goto rfl ?_ nofun
      intro t' d hd hpos
      have hne : d ≠ c := by
        rintro rfl
        exact hok d k hpc (by omega) t' hd
      dsimp only
      rwa [update_of_ne hne]
  | releaseShared c k hpc hmore =>
      have hpos : 0 < s.ref c := hs.ref_pos_of_owned (t := t) (by rw [hpc]; rfl)
      refine hl.goto rfl ?_ ?_
      · intro t' d hd hdpos
        dsimp only
        by_cases hne : d = c
        · subst hne
          rw [update_self]
          omega
        · rwa [update_of_ne hne]
      · intro d hd
        obtain rfl : c = d := Option.some.inj (resume_launched (some c) k hd)
        dsimp only
        rw [update_self]
        omega
  | mark c k q global hpc | free q k hpc =>
      exact hl.goto_of_le rfl (fun _ => le_refl _) (fun _ => hno)
  | globalPop q p hheld howned hdel hopen hnum hserv hdrop hlaunched =>
      refine hl.goto_of_le rfl (fun _ => le_refl _) ?_
      rw [hlaunched]
      nofun

/-- In every run in which no step drops the last reference of a context whose
creator has given up its own reference and not returned yet, counts are the
numbers of owners, `delete_context` runs once, when the count has reached
`0`, and no step uses a context with count `0`. -/
theorem context_references_sound
    (weight : τ → ℤ) (harbor : ℕ)
    (hr : Reaches (step weight) SparesLaunched (start harbor) s) :
    (∀ c < s.contexts, s.ref c = s.owners c) ∧
      (∀ c < s.contexts, s.deleted c = if s.ref c = 0 then 1 else 0) ∧
      ∀ l c, s.Accesses l c → 0 < s.ref c := by
  have hs : Counted s := counted_of_reaches hr
  have hl : LaunchedAlive s := by
    refine (hr.invariant (fun s => Counted s ∧ LaunchedAlive s)
      ⟨counted_start harbor, nofun⟩ ?_).2
    rintro s ⟨t, act⟩ s' ⟨hs, hl⟩ hok hstep
    have hmove := move_of_step hstep
    exact ⟨hs.move hmove, hl.move hs hok hmove⟩
  refine ⟨fun c _ => hs.ref c, ?_, ?_⟩
  · intro c hc
    rw [hs.deleted c]
    simp only [hc, true_and]
  · rintro ⟨t, act⟩ c hacc
    rcases accesses_cases hacc with hholds | howned | hlaunched
    · exact hs.ref_pos_of_holds hholds
    · exact hs.ref_pos_of_owned howned
    · exact hl t c hlaunched

/-- A creator `false` up to the release of its reference. -/
def launch : List (Bool × Act) :=
  [(false, .new), (false, .go), (false, .memory fun _ => ⟨0, 0, 0, 0⟩),
    (false, .initReturns true true), (false, .go)]

/-- The theorem above for a creator that has just released its reference. -/
theorem context_references_sound_after_launch :
    ∃ s, exec (step fun _ => 0) (start 0) launch = .next s ∧ s.ref 0 = 1 ∧
      s.Accesses (false, .go) 0 ∧ ((∀ c < s.contexts, s.ref c = s.owners c) ∧
      (∀ c < s.contexts, s.deleted c = if s.ref c = 0 then 1 else 0) ∧
      ∀ l c, s.Accesses l c → 0 < s.ref c) := by
  refine ⟨_, rfl, rfl, rfl, context_references_sound (fun _ => 0) 0 ?_⟩
  refine .tail (false, .go) (.tail (false, .initReturns true true)
    (.tail (false, .memory _) (.tail (false, .go) (.tail (false, .new) .refl
      ?_ rfl) ?_ rfl) ?_ rfl) ?_ rfl) ?_ rfl
  · nofun
  · nofun
  · nofun
  · nofun
  · intro c k hpc href
    cases hpc
    cases href

/-- Another thread `true` retires the service before its creator has set
`ctx->init`: the creator writes to a context whose count is `0`. -/
theorem launch_uses_released_context :
    ∃ s, exec (step fun _ => 0) (start 0)
        (launch ++ [(true, .retire 1), (true, .go), (true, .go)]) = .next s ∧
      s.ref 0 = 0 ∧ s.Accesses (false, .go) 0 := by
  exact ⟨_, rfl, rfl, rfl⟩

end State

end SkynetServer.Service
