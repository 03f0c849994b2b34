import SchemaDrift.Comparison.Task
import SchemaDrift.Proofs.Schema.Agreement

/-!
# What a schema accepts

* `Schema.Accepts` says which values a schema accepts. What formats and patterns mean is left open.
* `Schema.Plain` singles out the schemas for which this is all there is to say: schemas without
  branches, negation, references and rules on further properties, with one kind at most, where
  properties are for objects and items for arrays.
* `Json.hasKind_of_covered`: a value of one kind has every kind whose values include those.
-/

namespace SchemaDrift

/-! ## Values -/

/-- The relation in which a number must stand to a bound. -/
def Bound.demand : Bound → Relation
  | .minimum => .atLeast
  | .maximum => .atMost
  | .exclusiveMinimum => .above
  | .exclusiveMaximum => .below

def Number.isIntegral : Number → Bool
  | .int _ => true
  | .double x => x.integer?.isSome

/-- Whether a value has a kind. Every number is a `number`, those without fraction are `integer`s
as well. -/
def Json.hasKind (v : Json) (k : Kind) : Bool :=
  match k, v with
  | .integer, .num n => n.isIntegral
  | k, v => decide (v.kind = k)

/-- What formats and patterns say of a text. -/
structure TextMeaning where
  conforms : String → String → Prop
  fits : String → String → Prop

namespace Schema

/-- The rules of a schema on a value itself. A rule on values of one kind says nothing about
others. -/
structure Admits (meaning : TextMeaning) (s : Schema) (v : Json) : Prop where
  kind : ∀ ks, s.kinds = some ks → ∃ k ∈ ks, v.hasKind k = true
  const : ∀ c, s.const = some c → v.equal c = true
  bound : ∀ n, v = .num n → ∀ b x, Task.boundValue s.number b = some x →
    n.related b.demand (.double x) = true
  minLength : ∀ text, v = .str text → ∀ n, s.text.minLength = some n → n ≤ text.length
  maxLength : ∀ text, v = .str text → ∀ n, s.text.maxLength = some n → text.length ≤ n
  format : ∀ text, v = .str text → ∀ f, s.text.format = some f → meaning.conforms f text
  pattern : ∀ text, v = .str text → ∀ p, s.text.pattern = some p → meaning.fits p text
  required : ∀ fs, v = .obj fs → ∀ name ∈ s.required, (fs.lookup name).isSome = true

/-- A schema accepts a value: its rules admit the value, its properties accept the values under
their names, and its rule on items accepts every item. -/
inductive Accepts (meaning : TextMeaning) : Schema → Json → Prop where
  | intro {s : Schema} {v : Json} (here : s.Admits meaning v)
    (properties : ∀ fs name u x, v = .obj fs → s.properties.lookup name = some u →
      fs.lookup name = some x → Accepts meaning u x)
    (items : ∀ xs u x, v = .arr xs → s.items = some (.every u) → x ∈ xs → Accepts meaning u x) :
    Accepts meaning s v

/-! ## Plain schemas -/

/-- A constant is no array, no object and not `nan`. -/
def PlainConst : Json → Prop
  | .arr _ => False
  | .obj _ => False
  | x => x ≠ .num (.double .nan)

/-- What makes a schema plain, apart from the schemas in it. -/
structure PlainRules (s : Schema) : Prop where
  kinds : ∀ ks, s.kinds = some ks → ∃ k, ks = [k]
  const : ∀ c, s.const = some c → PlainConst c
  additional : s.additional = none
  anyOf : s.anyOf = none
  negated : s.negated = none
  reference : s.reference = none
  object_of_property : s.properties ≠ [] → s.kinds = some [.object]
  one_item_rule : ∀ rule, s.items = some rule → ∃ u, rule = .every u
  array_iff_items : s.kinds = some [.array] ↔ s.items.isSome

/-- A schema is plain, and so are the schemas of its properties and items. -/
inductive Plain : Schema → Prop where
  | intro {s : Schema} (rules : s.PlainRules)
    (properties : ∀ name u, s.properties.lookup name = some u → Plain u)
    (items : ∀ u, s.items = some (.every u) → Plain u) : Plain s

theorem Plain.rules {s : Schema} (h : s.Plain) : s.PlainRules := by
  cases h with
  | intro rules => exact rules

theorem Plain.property {s : Schema} (h : s.Plain) {name : String} {u : Schema}
    (hu : s.properties.lookup name = some u) : u.Plain := by
  cases h with
  | intro _ properties => exact properties name u hu

theorem Plain.item {s : Schema} (h : s.Plain) {u : Schema} (hu : s.items = some (.every u)) :
    u.Plain := by
  cases h with
  | intro _ _ items => exact items u hu

namespace PlainRules

variable {s : Schema}

theorem properties_eq_nil (h : s.PlainRules) (none : s.kinds = none) : s.properties = [] := by
  by_contra nonempty
  have kinds := h.object_of_property nonempty
  rw [none] at kinds
  exact nomatch kinds

/-- The effective type of a plain schema is the kind it gives, else that of its constant. -/
theorem typing_eq (h : s.PlainRules) :
    (∃ k, s.kinds = some [k] ∧ s.typing = .single k) ∨
      (∃ c, s.kinds = none ∧ s.const = some c ∧ s.typing = .single c.kind) ∨
      (s.kinds = none ∧ s.const = none ∧ s.typing = .any) := by
  rcases hk : s.kinds with _ | ks
  · rw [typing_of_no_kinds hk]
    rcases s.const with _ | c
    · refine .inr (.inr ⟨rfl, rfl, ?_⟩)
      show s.otherTyping = .any
      unfold otherTyping
      rw [h.properties_eq_nil hk, h.anyOf, h.negated]
      rfl
    · exact .inr (.inl ⟨c, rfl, rfl, rfl⟩)
  · obtain ⟨k, rfl⟩ := h.kinds ks hk
    exact .inl ⟨k, rfl, typing_of_kinds hk⟩

/-- Plain schemas are not split up. -/
theorem split?_eq_none (h : s.PlainRules) : s.split? = none := by
  unfold split?
  rcases h.typing_eq with ⟨k, _, single⟩ | ⟨c, _, _, single⟩ | ⟨_, _, any⟩
  · rw [single]
  · rw [single]
  · rw [any]

theorem split_eq (h : s.PlainRules) : s.split = s := by
  rw [split, h.split?_eq_none]
  rfl

/-- The constant of a plain schema is no object. -/
theorem unfoldConst_eq (h : s.PlainRules) : s.unfoldConst = s := by
  refine unfoldConst_of_kind fun c hc object => ?_
  obtain ⟨fs, rfl⟩ := obj_of_kind object
  exact h.const _ hc

theorem boundsOf_eq (h : s.PlainRules) : Task.boundsOf s = s.number := by
  unfold Task.boundsOf
  rw [h.anyOf]

theorem isOpen (h : s.PlainRules) : Task.isOpen s = true := by
  unfold Task.isOpen
  rw [h.additional]

end PlainRules

end Schema

/-! ## Kinds of values -/

theorem Typing.mem_covered (k : Kind) : k ∈ covered k := by
  cases k <;> exact List.mem_cons_self

namespace Json

theorem hasKind_kind (v : Json) : v.hasKind v.kind = true := by
  cases v <;> simp [hasKind, kind]

theorem hasKind_number_of_integer {v : Json} (h : v.hasKind .integer = true) :
    v.hasKind .number = true := by
  cases v <;> simp_all [hasKind, kind]

/-- A value of a kind has every kind that covers it. -/
theorem hasKind_of_covered {v : Json} {j k : Kind} (h : v.hasKind j = true)
    (covered : j ∈ Typing.covered k) : v.hasKind k = true := by
  cases k with
  | number =>
    rcases List.mem_cons.mp covered with rfl | covered
    · exact h
    · rw [List.mem_singleton.mp covered] at h
      exact hasKind_number_of_integer h
  | _ =>
    rw [List.mem_singleton.mp covered] at h
    exact h

end Json

end SchemaDrift
