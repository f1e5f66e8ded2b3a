import SkynetServer.Multicast.Packages

/-!
# A package is freed after its last message

A bound package has as many references as messages in flight or being handled,
as long as every message comes to a service that has not exited and whose
`__unpack` raises no error, and no service exits while it handles one.  A message
which is lost leaves a reference that nobody closes.
-/

namespace SkynetServer.Multicast

open Transition

/-! ## Items -/

/-- Every message of the run is closed by the service that gets it, and every
handler of a publication reaches the group. -/
def Closed (s : Local) : Command → Prop
  | .deliver _ m unpack => m.service ∉ s.exited ∧
      (s.client m.service m.c = some true → unpack = true)
  | .exit service => ∀ i, ∀ m ∈ (s.items i).handling, m.service ≠ service
  | .unknown _ => False
  | _ => True

/-- The data was freed, or belongs to the message that takes it to another
node. -/
def Item.Released (it : Item) : Prop :=
  (∃ count, it.package = .freed count) ∨ it.package = .handed

/-- A handler or a message still has the package. -/
def Item.Outstanding (it : Item) : Prop :=
  it.pending ≠ none ∨ it.messages ≠ []

/-- The count with which a package is bound.  One that is sent to nobody is
bound with 1 and closed at once. -/
def Item.Bound (it : Item) : Prop :=
  match it.package with
  | .bound count _ => count = it.sent.length
  | .freed count => count = it.sent.length ∨ it.sent = [] ∧ count = 1
  | _ => it.sent = []

/-- The references of a package; `closed` says that no message was lost. -/
def Item.Referenced (closed : Prop) (it : Item) : Prop :=
  match it.package with
  | .bound _ ref => it.pending = none ∧ 0 < ref ∧ it.messages.length ≤ ref ∧
      (closed → it.messages.length = ref)
  | .unbound => it.messages = [] ∧ (closed → it.pending ≠ none)
  | .detached => it.messages = [] ∧ (closed → it.pending ≠ none)
  | _ => it.pending = none ∧ it.messages = []

structure Item.Ok (closed : Prop) (it : Item) : Prop where
  bound : it.Bound
  referenced : it.Referenced closed

section Items

variable {closed : Prop} {it it' : Item}

theorem ok_absent : Item.absent.Ok closed := ⟨rfl, rfl, rfl⟩

theorem ok_published (harbor_id : ℕ) (source : Handle) (c : ℕ) :
    (Item.published harbor_id source c).Ok closed := by
  rw [Item.published]
  split
  · exact ⟨rfl, rfl, fun _ => Option.some_ne_none _⟩
  · exact ⟨rfl, rfl, fun _ => Option.some_ne_none _⟩

/-- The data is gone exactly when nobody has the package. -/
theorem Item.Ok.released_iff
    (h : it.Ok True) (hmade : it.package ≠ .absent) :
    it.Released ↔ ¬ it.Outstanding := by
  have href := h.referenced
  rw [Item.Referenced] at href
  rw [Item.Released, Item.Outstanding]
  cases hpackage : it.package with
  | absent => exact absurd hpackage hmade
  | unbound | detached =>
      rw [hpackage] at href
      simp [href.2 trivial]
  | bound count ref =>
      rw [hpackage] at href
      obtain ⟨-, hpos, -, heq⟩ := href
      have hne : it.messages ≠ [] := by
        intro hnil
        have hlength := heq trivial
        rw [hnil] at hlength
        exact absurd hlength (Nat.ne_of_lt hpos)
      simp [hne]
  | freed count | handed =>
      rw [hpackage] at href
      simp [href.1, href.2]

/-- A package which reaches its group is bound with the size of the group. -/
theorem Item.Ok.publish
    {d : Daemon} {c : ℕ} {source : Handle} (h : it.Ok closed)
    (hd : d.Counted) (hpending : it.pending = some (c, source))
    (hpackage : it.package ≠ .detached) :
    ∃ it', it.publish d c = .ok it' ∧ it'.Ok closed ∧
      it'.package ≠ .absent := by
  have href := h.referenced
  have hbound := h.bound
  rw [Item.Referenced] at href
  rw [Item.Bound] at hbound
  have hunbound : it.package = .unbound := by
    cases hp : it.package with
    | unbound => rfl
    | detached => exact absurd hp hpackage
    | _ =>
        rw [hp, hpending] at href
        cases href.1
  rw [hunbound] at href hbound
  rw [Item.publish]
  split
  · rename_i k ks hgroup
    rw [hd.count, hgroup, hunbound]
    have hhandling : it.handling = [] := (List.append_eq_nil_iff.mp href.1).2
    have hlength : (((k :: ks).map fun service => (⟨service, c⟩ : Delivery)) ++
        it.handling).length = (k :: ks).length := by
      rw [hhandling, List.append_nil, List.length_map]
    exact ⟨_, rfl, ⟨rfl, rfl, Nat.succ_pos _, Nat.le_of_eq hlength,
      fun _ => hlength⟩, Package.noConfusion⟩
  · rw [hunbound]
    exact ⟨_, rfl, ⟨.inr ⟨hbound, rfl⟩, rfl, href.1⟩, Package.noConfusion⟩

/-- A package with a message is bound. -/
theorem Item.Ok.exists_bound
    (h : it.Ok closed) (hm : it.messages ≠ []) :
    ∃ count ref, it.package = .bound count (ref + 1) := by
  have href := h.referenced
  rw [Item.Referenced] at href
  cases hpackage : it.package with
  | bound count ref =>
      rw [hpackage] at href
      obtain ⟨ref', rfl⟩ := Nat.exists_eq_succ_of_ne_zero
        (Nat.ne_of_gt href.2.1)
      exact ⟨count, ref', rfl⟩
  | unbound | detached =>
      rw [hpackage] at href
      exact absurd href.1 hm
  | _ =>
      rw [hpackage] at href
      exact absurd href.2 hm

/-- A service closes the package for one of the messages. -/
theorem Item.Ok.close
    (h : it.Ok closed) (hlength : it'.messages.length + 1 = it.messages.length)
    (hsent : it'.sent = it.sent) (hpending : it'.pending = it.pending) :
    ∃ p, it.package.close = .ok p ∧ { it' with package := p }.Ok closed ∧
      p ≠ .absent := by
  obtain ⟨count, ref, hpackage⟩ := h.exists_bound (by
    rintro hnil
    rw [hnil] at hlength
    cases hlength)
  have hbound := h.bound
  have href := h.referenced
  rw [Item.Bound, hpackage] at hbound
  rw [Item.Referenced, hpackage, ← hpending] at href
  dsimp only at hbound href
  rw [← hsent] at hbound
  obtain ⟨hnone, -, hle, heq⟩ := href
  rw [hpackage]
  cases ref with
  | zero =>
      refine ⟨_, rfl, ⟨.inl hbound, hnone, ?_⟩, Package.noConfusion⟩
      exact List.eq_nil_of_length_eq_zero
        (show it'.messages.length = 0 by omega)
  | succ ref =>
      refine ⟨_, rfl, ⟨hbound, hnone, Nat.succ_pos _,
        show it'.messages.length ≤ _ by omega, fun hclosed => ?_⟩,
        Package.noConfusion⟩
      have := heq hclosed
      exact show it'.messages.length = _ by omega

/-- A message which is lost is not closed. -/
theorem Item.Ok.keep
    (h : it.Ok closed) (hpackage : it'.package = it.package)
    (hsent : it'.sent = it.sent) (hpending : it'.pending = it.pending)
    (hle : it'.messages.length ≤ it.messages.length)
    (heq : closed → it'.messages.length = it.messages.length) :
    it'.Ok closed := by
  have hbound := h.bound
  have href := h.referenced
  have hnil (hm : it.messages = []) : it'.messages = [] := by
    rw [hm] at hle
    exact List.eq_nil_of_length_eq_zero (Nat.le_zero.mp hle)
  rw [Item.Bound, ← hpackage, ← hsent] at hbound
  rw [Item.Referenced, ← hpackage, ← hpending] at href
  refine ⟨hbound, ?_⟩
  rw [Item.Referenced]
  cases hp : it'.package with
  | bound count ref =>
      rw [hp] at href
      obtain ⟨hnone, hpos, hcount, hall⟩ := href
      exact ⟨hnone, hpos, Nat.le_trans hle hcount,
        fun hclosed => (heq hclosed).trans (hall hclosed)⟩
  | unbound | detached =>
      rw [hp] at href
      exact ⟨hnil href.1, href.2⟩
  | _ =>
      rw [hp] at href
      exact ⟨href.1, hnil href.2⟩

/-- A message is taken out of one of the two lists. -/
theorem length_messages_erase
    {m : Delivery} (hm : m ∈ it.inflight) :
    (it.lose m).messages.length + 1 = it.messages.length ∧
      (it.handle m).messages.length = it.messages.length := by
  have hlength := List.length_erase_add_one hm
  simp only [Item.lose, Item.handle, Item.messages, List.length_append,
    List.length_cons]
  omega

/-- The messages of a service that handles none are kept when it exits. -/
theorem length_messages_exit
    (it : Item) (service : Handle) :
    (it.exit service).messages.length ≤ it.messages.length ∧
      ((∀ m ∈ it.handling, m.service ≠ service) →
        (it.exit service).messages.length = it.messages.length) := by
  have hfilter := List.length_filter_le (fun m => m.service ≠ service)
    it.handling
  simp only [Item.exit, Item.messages, List.length_append]
  refine ⟨Nat.add_le_add_left hfilter _, fun hnone => ?_⟩
  rw [List.filter_eq_self.mpr fun m hm => decide_eq_true (hnone m hm)]

/-- The handler of a publication ends without publishing. -/
theorem Item.Ok.unknown
    {p : ℕ × Handle} (h : it.Ok closed) (hpending : it.pending = some p)
    (hlost : ¬ closed) : { it with pending := none }.Ok closed := by
  have href := h.referenced
  rw [Item.Referenced] at href
  refine ⟨h.bound, ?_⟩
  rw [Item.Referenced]
  dsimp only
  cases hpackage : it.package with
  | unbound | detached =>
      rw [hpackage] at href
      exact ⟨href.1, fun hclosed => absurd hclosed hlost⟩
  | _ =>
      rw [hpackage, hpending] at href
      cases href.1

/-- The data of a publication to another node is sent on. -/
theorem Item.Ok.handed
    (h : it.Ok closed) (hpackage : it.package = .detached) :
    { it with package := .handed, pending := none }.Ok closed := by
  have hbound := h.bound
  have href := h.referenced
  rw [Item.Bound, hpackage] at hbound
  rw [Item.Referenced, hpackage] at href
  exact ⟨hbound, rfl, href.1⟩

end Items

/-! ## The node -/

structure Local.Inv (closed : Prop) (s : Local) : Prop where
  counted : s.daemon.Counted
  items : ∀ i : ℕ, (s.items i).Ok closed
  made : ∀ i : ℕ, (s.items i).package ≠ .absent ↔ i < s.made

theorem local_init (closed : Prop) (harbor_id : ℕ) :
    (Local.init harbor_id).Inv closed where
  counted := Daemon.counted_init harbor_id
  items _ := ok_absent
  made _ := iff_of_false (fun hne => hne rfl) (Nat.not_lt_zero _)

section Node

variable {closed : Prop} {harbor_id : ℕ} {s : Local}

/-- A command on the tables. -/
theorem Local.Inv.tables
    {s' : Local} (h : s.Inv closed) (hd : s'.daemon.Counted)
    (hitems : s'.items = s.items) (hmade : s'.made = s.made) :
    s'.Inv closed where
  counted := hd
  items i := hitems ▸ h.items i
  made i := by
    rw [hitems, hmade]
    exact h.made i

theorem setItem_items (i j : ℕ) (it : Item) :
    (s.setItem i it).items j = if j = i then it else s.items j :=
  Function.update_apply s.items i it j

variable {i : ℕ}

theorem Local.Inv.setItem
    {it : Item} (h : s.Inv closed) (hi : i < s.made)
    (hit : it.Ok closed) (hmade : it.package ≠ .absent) :
    (s.setItem i it).Inv closed where
  counted := h.counted
  items j := by
    rw [setItem_items]
    split
    · exact hit
    · exact h.items j
  made j := by
    rw [setItem_items]
    split
    · rename_i hj
      exact iff_of_true hmade (hj ▸ hi)
    · exact h.made j

theorem Local.Inv.add
    {it : Item} (h : s.Inv closed) (hit : it.Ok closed)
    (hmade : it.package ≠ .absent) : (s.add it).Inv closed where
  counted := h.counted
  items j := by
    rw [Local.add]
    dsimp only
    rw [setItem_items]
    split
    · exact hit
    · exact h.items j
  made j := by
    rw [Local.add]
    dsimp only
    rw [setItem_items]
    split
    · rename_i hj
      exact iff_of_true hmade (hj ▸ Nat.lt_succ_self _)
    · rename_i hj
      refine (h.made j).trans ⟨Nat.lt_succ_of_lt, fun hlt => ?_⟩
      exact Nat.lt_of_le_of_ne (Nat.le_of_lt_succ hlt) hj

/-- An item that a handler or a message has was made. -/
theorem Local.Inv.lt_made
    (h : s.Inv closed) (hout : (s.items i).Outstanding) :
    i < s.made := by
  rw [← h.made]
  intro habsent
  have href := (h.items i).referenced
  rw [Item.Referenced, habsent] at href
  exact hout.elim (fun hne => hne href.1) fun hne => hne href.2

/-- What a step does to the invariant: it keeps it, and raises no error of
`lua-multicast.c`. -/
def Outcome.Keeps (closed : Prop) : Outcome PackageFault Local → Prop
  | .next s => s.Inv closed
  | .blocked => True
  | .fault _ => False

theorem Local.Inv.change
    {r : Except PackageFault Item} {it : Item} (h : s.Inv closed)
    (hi : i < s.made) (hr : r = .ok it) (hit : it.Ok closed)
    (hmade : it.package ≠ .absent) :
    Outcome.Keeps closed (s.change i r) := by
  rw [hr]
  exact h.setItem hi hit hmade

/-- A package is closed for one of its messages. -/
theorem Local.Inv.close
    (h : s.Inv closed) (it' : Item)
    (hlength : it'.messages.length + 1 = (s.items i).messages.length)
    (hsent : it'.sent = (s.items i).sent)
    (hpending : it'.pending = (s.items i).pending) :
    Outcome.Keeps closed (s.change i do
      let package ← (s.items i).package.close
      return { it' with package := package }) := by
  obtain ⟨p, hclose, hit, hmade⟩ := (h.items i).close hlength hsent hpending
  have hi : i < s.made := h.lt_made (.inr fun hnil => by
    rw [hnil] at hlength
    cases hlength)
  refine h.change hi ?_ hit hmade
  rw [hclose]
  rfl

/-- The delivery of a message; a lost one is excluded if `closed` holds. -/
theorem Local.Inv.dispatch_subscribe
    {m : Delivery} {unpack : Bool} (h : s.Inv closed)
    (hm : m ∈ (s.items i).inflight)
    (hok : closed → m.service ∉ s.exited ∧
      (s.client m.service m.c = some true → unpack = true)) :
    Outcome.Keeps closed (s.dispatch_subscribe i m unpack) := by
  have hi : i < s.made :=
    h.lt_made (.inr (List.ne_nil_of_mem (List.mem_append_left _ hm)))
  obtain ⟨hlost, hhandled⟩ := length_messages_erase hm
  have hclose := h.close _ hlost rfl rfl
  have hlose (hfail : ¬ closed) :
      (s.setItem i ((s.items i).lose m)).Inv closed :=
    h.setItem hi ((h.items i).keep rfl rfl rfl (by omega)
      fun hclosed => absurd hclosed hfail) ((h.made i).mpr hi)
  rw [Local.dispatch_subscribe]
  split
  · rename_i hexited
    exact hlose fun hclosed => (hok hclosed).1 hexited
  · split
    · rename_i hclient
      split
      · exact h.setItem hi ((h.items i).keep rfl rfl rfl (by omega)
          fun _ => hhandled) ((h.made i).mpr hi)
      · rename_i hunpack
        exact hlose fun hclosed => hunpack ((hok hclosed).2 hclient)
    · exact hclose

theorem Local.Inv.publish
    (h : s.Inv closed) :
    Outcome.Keeps closed (localStep harbor_id s (.publish i)) := by
  rw [localStep]
  split
  · trivial
  · rename_i c source hpending
    have hi : i < s.made :=
      h.lt_made (.inl (by rw [hpending]; exact Option.some_ne_none _))
    split
    · rename_i hpackage
      exact h.setItem hi ((h.items i).handed hpackage) Package.noConfusion
    · rename_i hpackage
      obtain ⟨it, hpublish, hit, hmade⟩ :=
        (h.items i).publish h.counted hpending hpackage
      exact h.change hi hpublish hit hmade

theorem SUBR_tables
    {d d' : Daemon} {source : Handle} {c : ℕ} {missing : Bool}
    (hd : d.Counted) (h : d.SUBR harbor_id source c = some (d', missing)) :
    d'.Counted := by
  rw [Daemon.SUBR] at h
  split at h
  · cases h
    exact hd
  · split at h
    · cases h
      exact ⟨hd.count, hd.nodup⟩
    · cases h

theorem USUBR_tables
    {d d' : Daemon} {source : Handle} {c : ℕ}
    (hd : d.Counted) (h : d.USUBR harbor_id source c = some d') :
    d'.Counted := by
  rw [Daemon.USUBR] at h
  split at h
  · split at h
    · cases h
    · cases h
      exact ⟨hd.count, hd.nodup⟩
  · cases h

theorem Local.Inv.step
    {l : Command} (h : s.Inv closed) (hok : closed → Closed s l) :
    Outcome.Keeps closed (localStep harbor_id s l) := by
  cases l with
  | NEW =>
      rw [localStep]
      split
      · trivial
      · rename_i d c hnew
        exact h.tables (h.counted.NEW hnew) rfl rfl
  | DEL c =>
      rw [localStep]
      split
      · exact h.tables h.counted.DEL rfl rfl
      · exact h
  | DELR c => exact h.tables (h.counted.none c) rfl rfl
  | SUB source c =>
      change ((s.SUB harbor_id source c)).Inv closed
      rw [Local.SUB]
      split
      · exact h.tables h.counted rfl rfl
      · exact h.tables h.counted.join rfl rfl
  | response source c result =>
      rw [localStep]
      split
      · cases result with
        | none => exact h.tables h.counted rfl rfl
        | some missing =>
            exact h.tables (h.counted.subscribed missing) rfl rfl
      · trivial
  | USUB source c =>
      rw [localStep]
      split
      · exact h
      · rename_i d forget husub
        exact h.tables (h.counted.USUB husub) rfl rfl
  | SUBR source c =>
      rw [localStep]
      split
      · exact h
      · rename_i d missing hsubr
        exact h.tables (SUBR_tables h.counted hsubr) rfl rfl
  | USUBR source c =>
      rw [localStep]
      split
      · exact h
      · rename_i d husubr
        exact h.tables (USUBR_tables h.counted husubr) rfl rfl
  | PUB source c =>
      rw [localStep]
      split
      · refine h.add (ok_published harbor_id source c) ?_
        rw [Item.published]
        dsimp only
        split <;> exact Package.noConfusion
      · trivial
  | remote source c =>
      exact h.add ⟨rfl, rfl, fun _ => Option.some_ne_none _⟩
        Package.noConfusion
  | publish i => exact h.publish
  | unknown i =>
      rw [localStep]
      split
      · trivial
      · rename_i p hpending
        have hi : i < s.made :=
          h.lt_made (.inl (by rw [hpending]; exact Option.some_ne_none _))
        exact h.setItem hi ((h.items i).unknown hpending hok)
          ((h.made i).mpr hi)
  | deliver i m unpack =>
      rw [localStep]
      split
      · rename_i hm
        exact h.dispatch_subscribe hm hok
      · trivial
  | finish i m =>
      rw [localStep]
      split
      · rename_i hm
        refine h.close { s.items i with
          handling := (s.items i).handling.erase m } ?_ rfl rfl
        have hlength := List.length_erase_add_one hm
        simp only [Item.messages, List.length_append]
        omega
      · trivial
  | client service c subscribe => exact h.tables h.counted rfl rfl
  | exit service =>
      refine ⟨h.counted, fun i => ?_, h.made⟩
      obtain ⟨hle, heq⟩ := length_messages_exit (s.items i) service
      exact (h.items i).keep rfl rfl rfl hle fun hclosed => heq (hok hclosed i)

end Node

/-! ## Runs -/

theorem reaches_local
    {closed : Prop} {harbor_id : ℕ} {ok : Local → Command → Prop} {s : Local}
    (h : Reaches (localStep harbor_id) ok (.init harbor_id) s)
    (hok : ∀ s l, ok s l → closed → Closed s l) : s.Inv closed := by
  refine h.invariant (Local.Inv closed) (local_init closed harbor_id) ?_
  intro t l t' ht htl hs
  have hkeeps : Outcome.Keeps closed (localStep harbor_id t l) :=
    ht.step (hok t l htl)
  rw [hs] at hkeeps
  exact hkeeps

/-- In every run, data is freed at most once and never before the last message
of its package was handled. -/
theorem never_freed_early
    {harbor_id : ℕ} {s : Local}
    (h : Reaches (localStep harbor_id) anyStep (.init harbor_id) s) :
    (∀ i, (s.items i).Released → ¬ (s.items i).Outstanding) ∧
      ∀ l f, localStep harbor_id s l ≠ .fault f := by
  have hinv : s.Inv False := reaches_local h fun _ _ _ hfalse => hfalse.elim
  constructor
  · rintro i hreleased
    have href := (hinv.items i).referenced
    rw [Item.Referenced] at href
    rcases hreleased with ⟨count, hpackage⟩ | hpackage
    · rw [hpackage] at href
      exact fun hout => hout.elim (fun hne => hne href.1) fun hne => hne href.2
    · rw [hpackage] at href
      exact fun hout => hout.elim (fun hne => hne href.1) fun hne => hne href.2
  · intro l f hs
    have hkeeps : Outcome.Keeps False (localStep harbor_id s l) :=
      hinv.step False.elim
    rw [hs] at hkeeps
    exact hkeeps

/-- In a run in which every message reaches a service that closes it, the
entries of the channels are counted, every package is bound with the number of
the services it is sent to, and its data is gone exactly when no handler and no
message has the package. -/
theorem freed_once
    {harbor_id : ℕ} {s : Local}
    (h : Reaches (localStep harbor_id) Closed (.init harbor_id) s) :
    s.daemon.Counted ∧
      (∀ i < s.made, (s.items i).Bound ∧
        ((s.items i).Released ↔ ¬ (s.items i).Outstanding)) ∧
      ∀ l f, localStep harbor_id s l ≠ .fault f := by
  have hinv : s.Inv True := reaches_local h fun _ _ hl _ => hl
  refine ⟨hinv.counted, fun i hi => ?_, (never_freed_early ?_).2⟩
  · exact ⟨(hinv.items i).bound,
      (hinv.items i).released_iff ((hinv.made i).mpr hi)⟩
  · exact h.mono fun _ _ _ => trivial

/-! ## One subscriber -/

/-- A service subscribes to a new channel, and another one publishes. -/
def publication : List Command :=
  [.NEW, .SUB 0x01000002#32 1, .client 0x01000002#32 1 (some true),
    .PUB 0x01000003#32 1, .publish 0]

def closedTest (s : Local) : Command → Bool
  | .deliver _ m unpack => m.service ∉ s.exited ∧
      (s.client m.service m.c = some true → unpack = true)
  | .exit _ | .unknown _ => false
  | _ => true

theorem closed_of_test
    (s : Local) (l : Command) (h : closedTest s l = true) : Closed s l := by
  cases l with
  | deliver i m unpack =>
      rw [closedTest, decide_eq_true_eq] at h
      exact h
  | exit service | unknown i => cases h
  | _ => trivial

/-- The service handles the message. -/
theorem freed_by_subscriber :
    ∃ s : Local, Reaches (localStep 1) Closed (.init 1) s ∧
      (s.items 0).package = .freed 1 ∧ s.made = 1 ∧
      ((s.items 0).Released ↔ ¬ (s.items 0).Outstanding) := by
  obtain ⟨s, h, hpackage, hmade⟩ :
      ∃ s, execWhile (localStep 1) closedTest (.init 1)
        (publication ++ [.deliver 0 ⟨0x01000002#32, 1⟩ true,
          .finish 0 ⟨0x01000002#32, 1⟩]) =
          .next s ∧ (s.items 0).package = .freed 1 ∧ s.made = 1 :=
    ⟨_, rfl, rfl, rfl⟩
  have hrun := reaches_of_execWhile closed_of_test h
  have hfreed := (freed_once hrun).2.1 0 (by rw [hmade]; exact Nat.zero_lt_one)
  exact ⟨s, hrun, hpackage, hmade, hfreed.2⟩

/-- `__unpack` raises an error, which `pcall` does not catch. -/
theorem never_freed :
    ¬ ∀ (harbor_id : ℕ) (s : Local),
      Reaches (localStep harbor_id) anyStep (.init harbor_id) s →
        ∀ i < s.made, (s.items i).Bound ∧
          ((s.items i).Released ↔ ¬ (s.items i).Outstanding) := by
  intro hclaim
  obtain ⟨s, h, hpackage, hpending, hmessages, hmade⟩ :
      ∃ s, exec (localStep 1) (.init 1)
        (publication ++ [.deliver 0 ⟨0x01000002#32, 1⟩ false]) =
          .next s ∧ (s.items 0).package = .bound 1 1 ∧
          (s.items 0).pending = none ∧ (s.items 0).messages = [] ∧
          s.made = 1 :=
    ⟨_, rfl, rfl, rfl, rfl, rfl⟩
  have hfreed := (hclaim 1 s (reaches_of_exec h) 0
    (by rw [hmade]; exact Nat.zero_lt_one)).2.mpr fun hout =>
      hout.elim (fun hne => hne hpending) fun hne => hne hmessages
  rcases hfreed with ⟨count, hfreed⟩ | hfreed
  · rw [hpackage] at hfreed
    cases hfreed
  · rw [hpackage] at hfreed
    cases hfreed

end SkynetServer.Multicast
