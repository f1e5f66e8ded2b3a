import Mathlib.Data.Int.Notation
import Mathlib.Data.Nat.Notation

/-!
# `table.serialize` and `table.unserialize`

A table is written as a constructor with its own entries and, behind them, those
of the table `__index` of its metatable.  Of two entries with the same key the
last one counts when the text is loaded, while a table is asked for its own
entry first.  A metatable of the table `__index` itself is left out.

Lua's `load` and the format `%q` are parameters.
-/

namespace SkynetServer.Stdex

/-! ## Values -/

/-- A value that is no table.  A number is its value: the numeral of the least
integer is read back as a float which is equal to it. -/
inductive Atom where
  | integer (x : ℤ)
  | boolean (b : Bool)
  | string (bytes : List UInt8)
  deriving DecidableEq, Repr

/-- A table is the list of the entries in the order of `pairs`, with those of
the table `__index` of its metatable, if it has one. -/
inductive Value where
  | atom (a : Atom)
  | table (own inherited : List (Value × Value))

/-- Entries of a table. -/
abbrev Entries := List (Value × Value)

/-- The entry with the key, the last one if there are several. -/
def rawget : Entries → Atom → Option Value
  | [], _ => none
  | (.atom b, v) :: es, a =>
    (rawget es a).or (if b = a then some v else none)
  | (.table _ _, _) :: es, a => rawget es a

/-- `t[k]` -/
def get (own inherited : Entries) (a : Atom) : Option Value :=
  (rawget own a).or (rawget inherited a)

/-! ## The source -/

section Source

variable (quote : List UInt8 → List UInt8)

/-- The bytes of a text of ASCII characters. -/
def ascii (s : String) : List UInt8 := s.toList.map fun c => .ofNat c.toNat

/-- `table.serialize` of a value that is no table -/
def serializeAtom : Atom → List UInt8
  | .integer x => ascii (toString x)
  | .boolean b => ascii (toString b)
  | .string bytes => quote bytes

mutual

/-- `table.serialize` -/
def serialize : Value → List UInt8
  | .atom a => serializeAtom quote a
  | .table own inherited =>
    ascii "\x7b\n" ++ serializeEntries own ++ serializeEntries inherited ++
      ascii "\x7d"

/-- A loop of `table.serialize`. -/
def serializeEntries : Entries → List UInt8
  | [] => []
  | (k, v) :: es =>
    ascii "[" ++ serialize k ++ ascii "]=" ++ serialize v ++ ascii ",\n" ++
      serializeEntries es

end

/-- `table.unserialize` of a string; `load` is `loadstring` with the call of the
function. -/
def unserialize (load : List UInt8 → Option Value) (lua : List UInt8) :
    Option Value :=
  if lua = [] then none else load (ascii "return " ++ lua)

end Source

/-! ## Constructors -/

/-- Lua expressions: atoms and table constructors. -/
inductive Expr where
  | atom (a : Atom)
  | table (fields : List (Expr × Expr))

namespace Expr

variable (quote : List UInt8 → List UInt8)

mutual

/-- The text of an expression. -/
def text : Expr → List UInt8
  | .atom a => serializeAtom quote a
  | .table fields => ascii "\x7b\n" ++ textFields fields ++ ascii "\x7d"

def textFields : List (Expr × Expr) → List UInt8
  | [] => []
  | (k, v) :: fields =>
    ascii "[" ++ text k ++ ascii "]=" ++ text v ++ ascii ",\n" ++
      textFields fields

end

mutual

/-- The value of an expression: a constructor makes a new table. -/
def value : Expr → Value
  | .atom a => .atom a
  | .table fields => .table (valueFields fields) []

def valueFields : List (Expr × Expr) → Entries
  | [] => []
  | (k, v) :: fields => (value k, value v) :: valueFields fields

end

theorem textFields_append (es fs : List (Expr × Expr)) :
    textFields quote (es ++ fs) =
      textFields quote es ++ textFields quote fs := by
  induction es with
  | nil => rfl
  | cons e es ih =>
      rw [List.cons_append, textFields, textFields, ih]
      simp only [List.append_assoc]

theorem valueFields_append (es fs : List (Expr × Expr)) :
    valueFields (es ++ fs) = valueFields es ++ valueFields fs := by
  induction es with
  | nil => rfl
  | cons e es ih =>
      rw [List.cons_append, valueFields, valueFields, ih, List.cons_append]

end Expr

mutual

/-- The expression that `table.serialize` writes. -/
def written : Value → Expr
  | .atom a => .atom a
  | .table own inherited =>
    .table (writtenEntries own ++ writtenEntries inherited)

def writtenEntries : Entries → List (Expr × Expr)
  | [] => []
  | (k, v) :: es => (written k, written v) :: writtenEntries es

end

section Written

variable (quote : List UInt8 → List UInt8)

mutual

/-- What is written is the text of the expression. -/
theorem serialize_eq_text (v : Value) :
    serialize quote v = (written v).text quote := by
  match v with
  | .atom a => rfl
  | .table own inherited =>
      rw [serialize, written, Expr.text, Expr.textFields_append,
        serializeEntries_eq_text own, serializeEntries_eq_text inherited]
      simp only [List.append_assoc]

theorem serializeEntries_eq_text (es : Entries) :
    serializeEntries quote es =
      Expr.textFields quote (writtenEntries es) := by
  match es with
  | [] => rfl
  | (k, v) :: es =>
      rw [serializeEntries, writtenEntries, Expr.textFields,
        serialize_eq_text k, serialize_eq_text v, serializeEntries_eq_text es]

end

end Written

/-! ## What is read back -/

section ReadBack

variable {own inherited es fs : Entries} {a : Atom} {r v w : Value}

/-- The value in the constructor. -/
def readBack (v : Value) : Value := (written v).value

theorem rawget_append (es fs : Entries) (a : Atom) :
    rawget (es ++ fs) a = (rawget fs a).or (rawget es a) := by
  induction es with
  | nil => exact (Option.or_none).symm
  | cons e es ih =>
      obtain ⟨k, v⟩ := e
      cases k with
      | atom b => rw [List.cons_append, rawget, rawget, ih, Option.or_assoc]
      | table _ _ => exact ih

theorem rawget_valueFields (es : Entries) (a : Atom) :
    rawget (Expr.valueFields (writtenEntries es)) a =
      (rawget es a).map readBack := by
  induction es with
  | nil => rfl
  | cons e es ih =>
      obtain ⟨k, v⟩ := e
      cases k with
      | atom b =>
          rw [writtenEntries, Expr.valueFields, rawget, written, Expr.value,
            rawget, ih]
          cases rawget es a with
          | some w => rfl
          | none =>
              by_cases hb : b = a
              · rw [if_pos hb, if_pos hb]
                rfl
              · rw [if_neg hb, if_neg hb]
                rfl
      | table _ _ => exact ih

/-- The entries that are read back: the inherited ones count first. -/
theorem get_readBack (own inherited : Entries) (a : Atom) :
    get (Expr.valueFields (writtenEntries own ++ writtenEntries inherited)) []
        a =
      ((rawget inherited a).or (rawget own a)).map readBack := by
  rw [get, Expr.valueFields_append, rawget_append, rawget_valueFields,
    rawget_valueFields, rawget, Option.or_none]
  cases rawget inherited a with
  | none | some _ => rfl

/-- All keys of the entries are atoms. -/
def AtomKeys (es : Entries) : Prop := ∀ e ∈ es, ∃ a, e.1 = .atom a

/-- `r[k] = v[k]` for every key of `v`, recursively for tables.  A key that is a
table is no key of another value. -/
inductive Agrees : Value → Value → Prop where
  | atom (a : Atom) : Agrees (.atom a) (.atom a)
  | table
      {rown rinherited own inherited : Entries}
      (hkeys : AtomKeys (own ++ inherited))
      (hsome : ∀ a, get own inherited a ≠ none → get rown rinherited a ≠ none)
      (hvalue : ∀ a v w, get own inherited a = some v →
        get rown rinherited a = some w → Agrees w v) :
      Agrees (.table rown rinherited) (.table own inherited)

/-- Every entry of the second value, the own ones before the inherited ones, is
the entry of the first value, the inherited ones before the own ones,
recursively; and no key is a table. -/
inductive ReadsAs : Value → Value → Prop where
  | atom (a : Atom) : ReadsAs (.atom a) (.atom a)
  | table
      {wown winherited own inherited : Entries}
      (hkeys : AtomKeys (own ++ inherited))
      (hsome : ∀ a, get own inherited a ≠ none → get winherited wown a ≠ none)
      (hvalue : ∀ a v w, get own inherited a = some v →
        get winherited wown a = some w → ReadsAs w v) :
      ReadsAs (.table wown winherited) (.table own inherited)

theorem readsAs_of_agrees
    (h : Agrees r v) (hr : r = readBack w) : ReadsAs w v := by
  induction h generalizing w with
  | atom a =>
      cases w with
      | atom b =>
          rw [readBack, written, Expr.value, Value.atom.injEq] at hr
          rw [hr]
          exact .atom b
      | table _ _ => cases hr
  | table hkeys hsome hvalue ih =>
      cases w with
      | atom b => cases hr
      | table wown winherited =>
          obtain ⟨rfl, rfl⟩ := Value.table.inj hr
          refine .table hkeys (fun a ha => ?_) fun a v w hv hw => ?_
          · have hne := hsome a ha
            rw [get_readBack] at hne
            exact fun hnone => hne (by rw [← get, hnone]; rfl)
          · refine ih a v (readBack w) hv ?_ rfl
            rw [get_readBack, ← get, hw]
            rfl

theorem agrees_of_readsAs (h : ReadsAs w v) : Agrees (readBack w) v := by
  induction h with
  | atom a => exact .atom a
  | table hkeys hsome hvalue ih =>
      refine .table hkeys (fun a ha => ?_) fun a v w hv hw => ?_
      · obtain ⟨w, hw⟩ := Option.ne_none_iff_exists'.mp (hsome a ha)
        rw [get_readBack, ← get, hw]
        exact Option.some_ne_none _
      · rw [get_readBack, ← get] at hw
        obtain ⟨u, hu, rfl⟩ := Option.map_eq_some_iff.mp hw
        exact ih a v u hv hu

theorem agrees_readBack_iff : Agrees (readBack w) v ↔ ReadsAs w v :=
  ⟨fun h => readsAs_of_agrees h rfl, agrees_of_readsAs⟩

theorem serialize_table_ne_nil
    (quote : List UInt8 → List UInt8) (own inherited : Entries) :
    serialize quote (.table own inherited) ≠ [] := by
  have hbrace : ascii "\x7b\n" = [123, 10] := by decide
  rw [serialize, hbrace]
  exact List.cons_ne_nil _ _

/-- A table that has no key of its own which it inherits too is read back right
if its values are. -/
theorem readsAs_of_disjoint
    (hkeys : AtomKeys (own ++ inherited))
    (hdisjoint : ∀ a, rawget own a = none ∨ rawget inherited a = none)
    (hvalue : ∀ a v, get own inherited a = some v → ReadsAs v v) :
    ReadsAs (.table own inherited) (.table own inherited) := by
  have hcomm : ∀ a, get inherited own a = get own inherited a := by
    intro a
    rw [get, get]
    rcases hdisjoint a with h | h
    · rw [h, Option.or_none, Option.none_or]
    · rw [h, Option.or_none, Option.none_or]
  refine .table hkeys (fun a ha => hcomm a ▸ ha) fun a v w hv hw => ?_
  rw [hcomm, hv] at hw
  rw [← Option.some.inj hw]
  exact hvalue a v hv

/-- If `load` evaluates what is written, a table is read back right if and only
if its inherited entries are those that it has of its own for the same keys,
recursively, and no key is a table. -/
theorem unserialize_serialize_iff
    (quote : List UInt8 → List UInt8) (load : List UInt8 → Option Value)
    (own inherited : Entries)
    (hload : load (ascii "return " ++
      (written (.table own inherited)).text quote) =
        some (written (.table own inherited)).value) :
    (∃ r, unserialize load (serialize quote (.table own inherited)) = some r ∧
      Agrees r (.table own inherited)) ↔
        ReadsAs (.table own inherited) (.table own inherited) := by
  have hread : unserialize load (serialize quote (.table own inherited)) =
      some (readBack (.table own inherited)) := by
    rw [unserialize, if_neg (serialize_table_ne_nil quote own inherited),
      serialize_eq_text, hload]
    rfl
  rw [hread, ← agrees_readBack_iff]
  constructor
  · rintro ⟨r, hr, hagrees⟩
    rwa [Option.some.inj hr]
  · exact fun h => ⟨_, rfl, h⟩

/-- A format that is enough for strings without quotes. -/
def plainQuote (bytes : List UInt8) : List UInt8 := 34 :: bytes ++ [34]

/-- A table with `a = 1` that inherits `b = true`. -/
def abTable : Value :=
  .table [(.atom (.string [97]), .atom (.integer 1))]
    [(.atom (.string [98]), .atom (.boolean true))]

theorem unserialize_serialize_abTable :
    ∃ r, unserialize (fun _ => some (written abTable).value)
      (serialize plainQuote abTable) = some r ∧ Agrees r abTable := by
  refine (unserialize_serialize_iff plainQuote _ _ _ rfl).mpr
    (readsAs_of_disjoint ?_ (fun a => ?_) fun a v hv => ?_)
  · intro e he
    rcases List.mem_cons.mp he with rfl | he
    · exact ⟨_, rfl⟩
    · obtain rfl := List.mem_singleton.mp he
      exact ⟨_, rfl⟩
  · rw [rawget, rawget, rawget, rawget, Option.none_or, Option.none_or]
    by_cases ha : Atom.string [97] = a
    · subst ha
      exact Or.inr rfl
    · exact Or.inl (if_neg ha)
  · rw [get, rawget, rawget, rawget, rawget, Option.none_or,
      Option.none_or] at hv
    by_cases ha : Atom.string [97] = a
    · rw [if_pos ha] at hv
      rw [← Option.some.inj hv]
      exact .atom _
    · rw [if_neg ha, Option.none_or] at hv
      by_cases hb : Atom.string [98] = a
      · rw [if_pos hb] at hv
        rw [← Option.some.inj hv]
        exact .atom _
      · rw [if_neg hb] at hv
        cases hv

/-- An entry of the table, and an inherited one with the same key. -/
theorem not_agrees_of_overridden :
    ¬ ∀ quote load own inherited,
      load (ascii "return " ++ (written (.table own inherited)).text quote) =
        some (written (.table own inherited)).value →
      ∃ r, unserialize load (serialize quote (.table own inherited)) =
        some r ∧ Agrees r (.table own inherited) := by
  intro h
  have hone := h plainQuote
    (fun _ => some (written (.table [(.atom (.integer 1), .atom (.integer 10))]
      [(.atom (.integer 1), .atom (.integer 20))])).value)
    [(.atom (.integer 1), .atom (.integer 10))]
    [(.atom (.integer 1), .atom (.integer 20))] rfl
  obtain ⟨r, hr, hagrees⟩ := hone
  rw [unserialize, if_neg (serialize_table_ne_nil _ _ _)] at hr
  obtain rfl := Option.some.inj hr
  cases hagrees with
  | table _ _ hvalue =>
      have hten := hvalue (.integer 1) _ _ rfl rfl
      cases hten

end ReadBack

end SkynetServer.Stdex
