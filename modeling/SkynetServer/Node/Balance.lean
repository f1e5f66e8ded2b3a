import Mathlib.Data.List.Dedup
import Mathlib.Data.List.Induction
import SkynetServer.Node.Control

/-!
# Balancing the game nodes

`CMD.balance_game` takes the first entry of `gamelist` with the least `cnt`, in
the order of `pairs`.  A node enters the list with the count zero and without an
address, so the least count can be that of a node whose address is not known.
-/

namespace SkynetServer.Control.Gamelist

variable {g : Gamelist} {names : List String} {game min : Game} {n : String}

/-- The names are those of the list, in some order. -/
def Order (g : Gamelist) (names : List String) : Prop :=
  names.Nodup ∧ ∀ n, n ∈ names ↔ g n ≠ none

/-- A node with a known address is in the list. -/
def Known (g : Gamelist) : Prop :=
  ∃ n game, g n = some game ∧ game.gateAddr ≠ none

/-- What `balance_game` should return if the address of a node is known: that
of a node with the least count among these, and not an empty one. -/
def Balances (g : Gamelist) (names : List String) : Prop :=
  g.Known → (∃ n game, g n = some game ∧
    game.gateAddr = some (g.balanceGame names) ∧
    ∀ n' game', g n' = some game' → game'.gateAddr ≠ none →
      game.cnt ≤ game'.cnt) ∧ g.balanceGame names ≠ ""

/-! ## The loop -/

section Loop

/-- The count is the least one of the list. -/
def Least (g : Gamelist) (game : Game) : Prop :=
  ∀ n game', g n = some game' → game.cnt ≤ game'.cnt

theorem balanceStep_some
    (hn : g n = some game) :
    g.balanceStep (some min) n =
      if min.cnt > game.cnt then some game else some min := by
  simp only [balanceStep, hn]

theorem balanceStep_none
    (hn : g n = some game) : g.balanceStep none n = some game := by
  simp only [balanceStep, hn]

/-- The minimum so far is kept or replaced by a smaller one of the list. -/
theorem foldl_balanceStep
    (hnames : ∀ n ∈ names, g n ≠ none) (min : Game) :
    ∃ m, names.foldl g.balanceStep (some min) = some m ∧ m.cnt ≤ min.cnt ∧
      ∀ n ∈ names, ∀ game, g n = some game → m.cnt ≤ game.cnt := by
  induction names generalizing min with
  | nil => exact ⟨min, rfl, Nat.le_refl _, fun _ h => nomatch h⟩
  | cons n names ih =>
      obtain ⟨game, hgame⟩ :=
        Option.ne_none_iff_exists'.mp (hnames n List.mem_cons_self)
      have hrest : ∀ k ∈ names, g k ≠ none :=
        fun k hk => hnames k (List.mem_cons_of_mem _ hk)
      have hlast : ∀ m : Game, m.cnt ≤ game.cnt →
          (∀ k ∈ names, ∀ game, g k = some game → m.cnt ≤ game.cnt) →
          ∀ k ∈ n :: names, ∀ game, g k = some game → m.cnt ≤ game.cnt := by
        intro m hle hall k hk other hother
        rcases List.mem_cons.mp hk with rfl | hk
        · rw [hgame] at hother
          rwa [← Option.some.inj hother]
        · exact hall k hk other hother
      rw [List.foldl_cons, balanceStep_some hgame]
      by_cases hlt : min.cnt > game.cnt
      · rw [if_pos hlt]
        obtain ⟨m, hm, hle, hall⟩ := ih hrest game
        exact ⟨m, hm, by omega, hlast m hle hall⟩
      · rw [if_neg hlt]
        obtain ⟨m, hm, hle, hall⟩ := ih hrest min
        exact ⟨m, hm, hle, hlast m (by omega) hall⟩

/-- A minimum that is the least of the list stays. -/
theorem foldl_balanceStep_least
    (hmin : g.Least min) (hnames : ∀ n ∈ names, g n ≠ none) :
    names.foldl g.balanceStep (some min) = some min := by
  induction names with
  | nil => rfl
  | cons n names ih =>
      obtain ⟨game, hgame⟩ :=
        Option.ne_none_iff_exists'.mp (hnames n List.mem_cons_self)
      have hle := hmin n game hgame
      rw [List.foldl_cons, balanceStep_some hgame, if_neg (by omega)]
      exact ih fun k hk => hnames k (List.mem_cons_of_mem _ hk)

/-- The loop ends with an entry that has the least count. -/
theorem balanceMin_spec
    (horder : g.Order names) (hgame : g n = some game) :
    ∃ k m, g.balanceMin names = some m ∧ g k = some m ∧ g.Least m := by
  have hmem : ∀ k ∈ names, g k ≠ none := fun k hk => (horder.2 k).mp hk
  obtain _ | ⟨first, names⟩ := names
  · have hn := (horder.2 n).mpr (by rw [hgame]; exact Option.some_ne_none _)
    cases hn
  · obtain ⟨m₀, hm₀⟩ :=
      Option.ne_none_iff_exists'.mp (hmem first List.mem_cons_self)
    obtain ⟨m, hm, hle, hall⟩ := foldl_balanceStep
      (fun k hk => hmem k (List.mem_cons_of_mem _ hk)) m₀
    have hmin : g.balanceMin (first :: names) = some m := by
      rw [balanceMin, List.foldl_cons, balanceStep_none hm₀, hm]
    obtain ⟨k, hk⟩ := exists_of_balanceMin hmin
    refine ⟨k, m, hmin, hk, fun k' other hother => ?_⟩
    have hk' := (horder.2 k').mpr (by rw [hother]; exact Option.some_ne_none _)
    rcases List.mem_cons.mp hk' with rfl | hk'
    · rw [hm₀] at hother
      rwa [← Option.some.inj hother]
    · exact hall k' hk' other hother

/-- The loop takes an entry with the least count if it comes first. -/
theorem balanceMin_first
    (horder : g.Order (n :: names)) (hgame : g n = some game)
    (hleast : g.Least game) : g.balanceMin (n :: names) = some game := by
  rw [balanceMin, List.foldl_cons, balanceStep_none hgame]
  exact foldl_balanceStep_least hleast
    fun k hk => (horder.2 k).mp (List.mem_cons_of_mem _ hk)

end Loop

/-! ## Runs -/

section Runs

/-- The list after these messages and calls. -/
def after (mails : List Mail) : Gamelist := mails.foldl serve fun _ => none

/-- A message or a call is about one name at most. -/
theorem exists_serve_eq (g : Gamelist) (m : Mail) :
    ∃ name, ∀ n, n ≠ name → g.serve m n = g n := by
  cases m with
  | connect _ table =>
      cases table with
      | info i =>
          refine ⟨i.nodename, fun n hn => ?_⟩
          rw [serve, connect]
          split
          · exact Function.update_of_ne hn _ _
          · rfl
      | client c =>
          refine ⟨"", fun n _ => ?_⟩
          rw [serve, connect]
          split
          · rfl
          · rfl
  | disconnect _ table =>
      cases table with
      | info i =>
          refine ⟨i.nodename, fun n hn => ?_⟩
          rw [serve, disconnect]
          split
          · exact Function.update_of_ne hn _ _
          · rfl
      | client c => exact ⟨"", fun _ _ => rfl⟩
  | update _ _ => exact ⟨"", fun _ _ => rfl⟩
  | updateAgentCnt name cnt =>
      refine ⟨name, fun n hn => ?_⟩
      rw [serve, updateAgentCnt]
      cases g name with
      | none => rfl
      | some game => exact Function.update_of_ne hn _ _
  | gateAddr name addr =>
      refine ⟨name, fun n hn => ?_⟩
      rw [serve, setGateAddr]
      cases g name with
      | none => rfl
      | some game =>
          dsimp only
          split
          · exact Function.update_of_ne hn _ _
          · rfl

/-- The names of a list that is reached are finitely many. -/
theorem exists_names (mails : List Mail) :
    ∃ names : List String, ∀ n, after mails n ≠ none → n ∈ names := by
  induction mails using List.reverseRecOn with
  | nil => exact ⟨[], fun _ h => absurd rfl h⟩
  | append_singleton mails m ih =>
      obtain ⟨names, hnames⟩ := ih
      obtain ⟨name, hname⟩ := exists_serve_eq (after mails) m
      refine ⟨name :: names, fun n hn => ?_⟩
      by_cases heq : n = name
      · rw [heq]
        exact List.mem_cons_self
      · rw [after, List.foldl_append] at hn
        exact List.mem_cons_of_mem _ (hnames n ((hname n heq) ▸ hn))

/-- There is an order in which a name of the list comes first. -/
theorem exists_order_cons
    {mails : List Mail} (hgame : after mails n = some game) :
    ∃ names, (after mails).Order (n :: names) := by
  obtain ⟨names, hnames⟩ := exists_names mails
  have hne : after mails n ≠ none := by
    rw [hgame]
    exact Option.some_ne_none _
  refine ⟨(names.dedup.filter fun k => (after mails k).isSome ∧ k ≠ n),
    List.nodup_cons.mpr ⟨?_, names.nodup_dedup.filter _⟩, fun k => ?_⟩
  · intro hmem
    have := (List.mem_filter.mp hmem).2
    simp at this
  · rw [List.mem_cons, List.mem_filter, List.mem_dedup]
    constructor
    · rintro (rfl | ⟨-, hk⟩)
      · exact hne
      · have hsome := (of_decide_eq_true hk).1
        exact Option.isSome_iff_ne_none.mp hsome
    · intro hk
      by_cases heq : k = n
      · exact Or.inl heq
      · exact Or.inr ⟨hnames k hk,
          decide_eq_true ⟨Option.isSome_iff_ne_none.mpr hk, heq⟩⟩

/-- In a list that is reached the right address is returned, in every order of
`pairs`, if and only if every node with the least count has an address that is
known and not empty, as soon as one address is known. -/
theorem balances_iff (mails : List Mail) :
    (∀ names, (after mails).Order names → (after mails).Balances names) ↔
      ((after mails).Known → ∀ n game, after mails n = some game →
        (after mails).Least game → ∃ a, game.gateAddr = some a ∧ a ≠ "") := by
  constructor
  · intro h hknown n game hgame hleast
    obtain ⟨names, horder⟩ := exists_order_cons hgame
    obtain ⟨-, hne⟩ := h _ horder hknown
    rw [balanceGame, balanceMin_first horder hgame hleast] at hne
    dsimp only at hne
    cases haddr : game.gateAddr with
    | none =>
        rw [haddr] at hne
        exact absurd rfl hne
    | some a =>
        rw [haddr] at hne
        exact ⟨a, rfl, hne⟩
  · intro h names horder hknown
    obtain ⟨n, game, hgame, -⟩ := id hknown
    obtain ⟨k, m, hmin, hk, hleast⟩ := balanceMin_spec horder hgame
    obtain ⟨a, ha, hne⟩ := h hknown k m hk hleast
    have hresult : (after mails).balanceGame names = a := by
      rw [balanceGame, hmin]
      dsimp only
      rw [ha]
      rfl
    rw [hresult]
    exact ⟨⟨k, m, hk, ha, fun n' game' h' _ => hleast n' game' h'⟩, hne⟩

end Runs

/-- A node whose address is known, and a node that has connected just now. -/
theorem not_balances_of_connect :
    ¬ ∀ mails names, (after mails).Order names →
      (after mails).Balances names := by
  intro h
  have hbalances := h
    [.connect "b" (.info ⟨"b", some 2, none, none⟩), .gateAddr "b" "b:1",
      .connect "a" (.info ⟨"a", some 2, none, none⟩)] ["a", "b"] ?_ ?_
  · exact absurd hbalances.2 (by decide)
  · refine ⟨by decide, fun n => ?_⟩
    by_cases ha : n = "a"
    · subst ha
      exact iff_of_true (by decide) (by decide)
    · by_cases hb : n = "b"
      · subst hb
        exact iff_of_true (by decide) (by decide)
      · refine iff_of_false (by simp [ha, hb]) ?_
        simp [after, serve, connect, setGateAddr, Payload.serverType,
          serverTypeGame, Function.update_of_ne, ha, hb]
  · exact ⟨"b", _, rfl, by decide⟩

end SkynetServer.Control.Gamelist
