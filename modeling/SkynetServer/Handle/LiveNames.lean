import SkynetServer.Handle.Bindings

/-!
# Names of services that exist

The commands `REG`, `NAME`, `KILL` and `EXIT` of `skynet_server.c`, issued by
any services in any order, with the launch of services between them.  A service
may issue a command after it was retired, because its callback still runs.

`REG` and `NAME` bind a name to a handle without asking whether a service is
registered under it.  The retirement of the handle removes its names, but a
name that is bound when there is no such service stays for ever.
-/

namespace SkynetServer.Handle

open SortedArray Transition

/-- A command, with its parameter as `sscanf` and `strtoul` take it apart. -/
inductive Command where
  /-- `skynet_context_new` up to the store of the handle -/
  | launch (ctx : Ctx)
  | reg (memory : ℕ → NamedHandle) (ctx : Ctx) (name : CString)
  | name (memory : ℕ → NamedHandle) (name : CString) (handle : ℕ)
  /-- with the handle of `tohandle`, which may have looked up a name before -/
  | kill (handle : ℕ)
  | exit (ctx : Ctx)

namespace Naming

/-- What a command does to the storage.  A service issues commands when it has
its handle. -/
def command (s : Naming) : Command → Outcome NameFault Naming
  | .launch ctx => s.step (.register ctx)
  | .reg memory ctx name =>
    if s.registry.handleOf ctx = 0 then .blocked
    else s.step (.namehandle memory (s.registry.handleOf ctx) name)
  | .name memory name handle =>
    if handle = 0 then .next s else s.step (.namehandle memory handle name)
  | .kill handle =>
    if handle = 0 then .next s else s.step (.retire handle)
  | .exit ctx =>
    if s.registry.handleOf ctx = 0 then .blocked
    else s.step (.retire (s.registry.handleOf ctx))

/-- A service is registered under the handle. -/
def Live (s : Naming) (handle : ℕ) : Prop :=
  ∃ ctx, handleGrab s.registry.handleOf s.registry.storage handle = some ctx

/-- The name is in the array. -/
def Bound (s : Naming) (name : CString) : Prop :=
  ∃ a ∈ s.names.contents, a.name = name

/-- A command binds a new name to a registered handle only. -/
def BindsLive (s : Naming) : Command → Prop
  | .reg _ ctx name => s.Live (s.registry.handleOf ctx) ∨ s.Bound name
  | .name _ name handle => handle = 0 ∨ s.Live handle ∨ s.Bound name
  | _ => True

/-- Names are those of registered services. -/
structure NamesLive (s : Naming) : Prop where
  live : ∀ a ∈ s.names.contents, s.Live a.handle
  /-- a lookup that finds a handle finds a service -/
  lookup : ∀ name, s.names.findname name ≠ 0 →
    s.Live (s.names.findname name)
  /-- a name is refused only when it is that of a registered service -/
  again : ∀ memory handle name,
    s.names.namehandle memory handle name = some (s.names, none) →
      s.Live (s.names.findname name)

/-! ## The invariant -/

variable {s s' : Naming}

theorem live_iff (h : Registry.Inv s.registry) (handle : ℕ) :
    s.Live handle ↔ ∃ ctx, (handle, ctx) ∈ s.registry.live :=
  exists_congr fun ctx => h.grab_iff handle ctx

theorem retires_iff (handle : ℕ) : s.Retires handle ↔ s.Live handle := by
  rw [Retires, handleRetire, Live, handleGrab]
  cases handleFind s.registry.handleOf s.registry.storage handle with
  | none | some ctx => simp

/-- The storage is correct after every registration that returns. -/
theorem register_inv
    {r r' : Registry} (h : Registry.Inv r) {ctx : Ctx}
    (hs : r.step (.register ctx) = .next r') : Registry.Inv r' := by
  by_cases hskip : r.storage.SkipsSlotZero
  · rw [Registry.step] at hs
    split at hs
    · cases hs
    · rcases handleRegister_error_of_skips h.table.toWellSized hskip with
        herror | herror
      · rw [herror] at hs
        cases hs
      · rw [herror] at hs
        cases hs
  · exact Registry.step_inv (l := .register ctx) h hskip hs

/-- A registered service stays registered when another one is launched. -/
theorem register_live
    {r r' : Registry} {ctx : Ctx} (hs : r.step (.register ctx) = .next r') :
    ∀ p ∈ r.live, p ∈ r'.live := by
  intro p hp
  rw [Registry.step] at hs
  split at hs
  · cases hs
  · split at hs
    · cases hs
    · cases hs
      exact List.mem_cons_of_mem _ hp

structure Sound (s : Naming) : Prop where
  registry : Registry.Inv s.registry
  sorted : s.names.Sorted
  live : ∀ a ∈ s.names.contents, ∃ ctx, (a.handle, ctx) ∈ s.registry.live

theorem Sound.namesLive (h : s.Sound) : s.NamesLive where
  live a ha := (live_iff h.registry a.handle).mpr (h.live a ha)
  lookup name hne := by
    by_cases hbound : s.Bound name
    · obtain ⟨a, ha, rfl⟩ := hbound
      rw [h.sorted.findname_of_mem ha, live_iff h.registry]
      exact h.live a ha
    · have hno : ∀ a ∈ s.names.contents, a.name ≠ name :=
        fun a ha heq => hbound ⟨a, ha, heq⟩
      exact absurd (h.sorted.findname_of_not_mem hno) hne
  again memory handle name hrefused := by
    by_cases hbound : s.Bound name
    · obtain ⟨a, ha, rfl⟩ := hbound
      rw [h.sorted.findname_of_mem ha, live_iff h.registry]
      exact h.live a ha
    · have hno : ∀ a ∈ s.names.contents, a.name ≠ name :=
        fun a ha heq => hbound ⟨a, ha, heq⟩
      have hname := (h.sorted.namehandle_of_not_mem hno hrefused).2.1
      cases hname

theorem sound_init (harbor : ℕ) (memory : ℕ → NamedHandle) :
    (init harbor memory).Sound where
  registry := Registry.init_inv harbor
  sorted := NameTable.sorted_namesInit memory
  live _ h := by cases h

theorem Sound.register
    (h : s.Sound) {ctx : Ctx} (hs : s.step (.register ctx) = .next s') :
    s'.Sound := by
  rw [step] at hs
  split at hs
  · rename_i r hr
    cases hs
    refine ⟨register_inv h.registry hr, h.sorted, fun a ha => ?_⟩
    obtain ⟨c, hc⟩ := h.live a ha
    exact ⟨c, register_live hr _ hc⟩
  · cases hs
  · cases hs

theorem Sound.retire (h : s.Sound) (handle : ℕ) :
    (s.retire handle).Sound := by
  have hkeep : ∀ a ∈ s.names.contents, a.handle ≠ handle →
      ∃ ctx, (a.handle, ctx) ∈
        s.registry.live.filter fun p => p.1 ≠ handle := by
    intro a ha hne
    obtain ⟨ctx, hctx⟩ := h.live a ha
    exact ⟨ctx, List.mem_filter.mpr ⟨hctx, by simpa using hne⟩⟩
  rw [Naming.retire]
  dsimp only
  split_ifs with hretires
  · refine ⟨h.registry.retire handle, h.sorted.dropHandle handle, ?_⟩
    intro a ha
    obtain ⟨ha, hne⟩ := NameTable.mem_dropHandle.mp ha
    exact hkeep a ha hne
  · refine ⟨h.registry.retire handle, h.sorted, fun a ha => hkeep a ha ?_⟩
    rintro rfl
    refine hretires ((retires_iff _).mpr ?_)
    exact (live_iff h.registry a.handle).mpr (h.live a ha)

theorem Sound.namehandle
    (h : s.Sound) {memory : ℕ → NamedHandle} {handle : ℕ} {name : CString}
    (hok : s.Live handle ∨ s.Bound name)
    (hs : s.step (.namehandle memory handle name) = .next s') :
    s'.Sound := by
  rw [step] at hs
  by_cases hbound : s.Bound name
  · obtain ⟨a, ha, rfl⟩ := hbound
    rw [h.sorted.namehandle_of_mem ha] at hs
    cases hs
    exact h
  · have hno : ∀ a ∈ s.names.contents, a.name ≠ name :=
      fun a ha heq => hbound ⟨a, ha, heq⟩
    have hlive := (live_iff h.registry handle).mp (hok.resolve_right hbound)
    cases hcall : s.names.namehandle memory handle name with
    | none =>
        rw [hcall] at hs
        cases hs
    | some r =>
        obtain ⟨hsorted, hname, hmem⟩ :=
          h.sorted.namehandle_of_not_mem hno hcall
        obtain ⟨names, result⟩ := r
        cases hname
        rw [hcall] at hs
        cases hs
        refine ⟨h.registry, hsorted, fun a ha => ?_⟩
        rcases (hmem a).mp ha with rfl | ha
        · exact hlive
        · exact h.live a ha

theorem Sound.command
    (h : s.Sound) {l : Command} (hok : s.BindsLive l)
    (hs : s.command l = .next s') : s'.Sound := by
  cases l with
  | launch ctx => exact h.register hs
  | reg memory ctx name =>
      rw [Naming.command] at hs
      split_ifs at hs
      exact h.namehandle hok hs
  | name memory name handle =>
      rw [Naming.command] at hs
      split_ifs at hs with hzero
      · cases hs
        exact h
      · exact h.namehandle (hok.resolve_left hzero) hs
  | kill handle =>
      rw [Naming.command] at hs
      split_ifs at hs
      · cases hs
        exact h
      · cases hs
        exact h.retire handle
  | exit ctx =>
      rw [Naming.command] at hs
      split_ifs at hs
      cases hs
      exact h.retire _

/-- In every run whose commands bind new names to registered handles only, the
names are those of registered services. -/
theorem names_live
    (harbor : ℕ) (memory : ℕ → NamedHandle)
    (h : Reaches command BindsLive (init harbor memory) s) : s.NamesLive := by
  have hsound : s.Sound := h.invariant Sound (sound_init harbor memory)
    fun _ _ _ hs hok hstep => hs.command hok hstep
  exact hsound.namesLive

/-- A service launched, with its name. -/
theorem names_live_of_reg :
    ∃ s, Reaches command BindsLive (init 0 fun _ => ⟨[], 0⟩) s ∧
      s.names.findname [97] = 1 ∧ s.NamesLive := by
  obtain ⟨s, t, hs, hlive, ht, hname⟩ : ∃ s t : Naming,
      command (init 0 fun _ => ⟨[], 0⟩) (.launch 1) = .next s ∧
        s.Live (s.registry.handleOf 1) ∧
          s.command (.reg (fun _ => ⟨[], 0⟩) 1 [97]) = .next t ∧
            t.names.findname [97] = 1 :=
    ⟨_, _, rfl, ⟨1, rfl⟩, rfl, by decide⟩
  have hreach : Reaches command BindsLive (init 0 fun _ => ⟨[], 0⟩) t :=
    .tail (.reg (fun _ => ⟨[], 0⟩) 1 [97])
      (.tail (.launch 1) .refl trivial hs) (Or.inl hlive) ht
  exact ⟨t, hreach, hname, names_live 0 _ hreach⟩

/-- A service exits, and then another one gives a name to its handle. -/
theorem name_of_dead_service :
    ∃ s, Reaches command anyStep (init 0 fun _ => ⟨[], 0⟩) s ∧
      ¬s.NamesLive := by
  obtain ⟨s, hs, hname, hgrab⟩ : ∃ s, exec command (init 0 fun _ => ⟨[], 0⟩)
      [.launch 1, .exit 1, .name (fun _ => ⟨[], 0⟩) [97] 1] = .next s ∧
        s.names.findname [97] = 1 ∧
          handleGrab s.registry.handleOf s.registry.storage 1 = none :=
    ⟨_, rfl, by decide, by decide⟩
  refine ⟨s, reaches_of_exec hs, fun hlive => ?_⟩
  obtain ⟨ctx, hctx⟩ := hlive.lookup [97] (by rw [hname]; decide)
  rw [hname, hgrab] at hctx
  cases hctx

end Naming

end SkynetServer.Handle
