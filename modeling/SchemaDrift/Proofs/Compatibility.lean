import SchemaDrift.Proofs.Acceptance
import SchemaDrift.Proofs.Reflexivity

/-!
# Edits that reject nothing

Edits without a breaking one among them only ever make a rule laxer or drop it, so the rules of the
new schema admit what those of the old one admitted. Bounds are the rounded ones of the schemas.

* `Task.typing_of_harmless`, `Task.const_of_harmless`, `Task.bound_of_harmless` and their
  companions read off harmless edits how the new rule stands to the old one.
* `Schema.Admits.of_harmless` and `Schema.PlainRules.admits_of_harmless` put them together.
* `Comparison.harmless_of_compatible` says what the verdict on two schemas rests on.
-/

namespace SchemaDrift

open Schema

namespace Task

/-! ## Harmless edits -/

/-- There is no breaking edit among these. -/
def Harmless (edits : List Edit) : Prop := ∀ e ∈ edits, e.isBreaking = false

theorem Harmless.left {es fs : List Edit} (h : Harmless (es ++ fs)) : Harmless es :=
  fun e he => h e (List.mem_append_left fs he)

theorem Harmless.right {es fs : List Edit} (h : Harmless (es ++ fs)) : Harmless fs :=
  fun e he => h e (List.mem_append_right es he)

theorem Harmless.nil : Harmless [] := fun _ he => absurd he List.not_mem_nil

theorem Harmless.singleton {e : Edit} (h : e.isBreaking = false) : Harmless [e] := by
  intro f hf
  rw [List.mem_singleton.mp hf]
  exact h

theorem Harmless.append {es fs : List Edit} (h : Harmless es) (k : Harmless fs) :
    Harmless (es ++ fs) := by
  intro e he
  rcases List.mem_append.mp he with he | he
  · exact h e he
  · exact k e he

/-- No kind is lost. -/
theorem typing_of_harmless {s t : Schema} (h : Harmless (typeEdits s t)) {k : Kind}
    (hk : k ∈ s.typing.admitted) : k ∈ t.typing.admitted := by
  by_contra lost
  have dropped : Edit.typeRemove k ∈ typeEdits s t := by
    refine List.mem_append_left _ (List.mem_map_of_mem ?_)
    rw [List.mem_filter, Typing.mem_kindSet]
    refine ⟨hk, ?_⟩
    rw [Bool.not_eq_true', List.contains_eq_mem, decide_eq_false_iff_not, Typing.mem_kindSet]
    exact lost
  exact nomatch h _ dropped

/-- No kind is lost exactly if the edits of kinds are harmless. -/
theorem harmless_typeEdits_iff {s t : Schema} :
    Harmless (typeEdits s t) ↔ ∀ k ∈ s.typing.admitted, k ∈ t.typing.admitted := by
  constructor
  · exact fun harmless k hk => typing_of_harmless harmless hk
  · intro kept e he
    rcases List.mem_append.mp he with he | he
    · obtain ⟨k, hk, rfl⟩ := List.mem_map.mp he
      obtain ⟨before, after⟩ := List.mem_filter.mp hk
      have still := Typing.mem_kindSet.mpr (kept k (Typing.mem_kindSet.mp before))
      rw [List.contains_iff_mem.mpr still] at after
      exact nomatch after
    · obtain ⟨k, -, rfl⟩ := List.mem_map.mp he
      rfl

/-- A constant is the old one. -/
theorem const_of_harmless {s t : Schema} (h : Harmless (constEdits s t)) {y : Json}
    (hy : t.const = some y) : ∃ x, s.const = some x ∧ x.equal y = true := by
  unfold constEdits at h
  cases hs : s.const with
  | none =>
    rw [hs, hy] at h
    exact nomatch h (.constAdd y) List.mem_cons_self
  | some x =>
    refine ⟨x, rfl, ?_⟩
    by_contra changed
    rw [hs, hy] at h
    dsimp only at h
    rw [if_neg changed] at h
    exact nomatch h (.constAdd y) (List.mem_cons_of_mem _ List.mem_cons_self)

/-- A rule with one value was there before, with a value that agrees or may become the new one. -/
theorem value_of_harmless {α : Type} {agrees : α → α → Bool} {added removed : α → Edit}
    {changed : α → α → Edit} (breaking : ∀ y, (added y).isBreaking = true) {old new : Option α}
    (h : Harmless (valueEdits agrees added removed changed old new)) {y : α}
    (hy : new = some y) :
    ∃ x, old = some x ∧ (agrees x y = true ∨ (changed x y).isBreaking = false) := by
  subst hy
  cases old with
  | none =>
    have harmless := h (added y) List.mem_cons_self
    rw [breaking] at harmless
    exact nomatch harmless
  | some x =>
    refine ⟨x, rfl, ?_⟩
    by_cases agreed : agrees x y = true
    · exact .inl agreed
    · unfold valueEdits at h
      dsimp only at h
      rw [if_neg agreed] at h
      exact .inr (h _ List.mem_cons_self)

theorem keeps?_self (b : Bound) : b.keeps? b = some b.demand.lax := by
  cases b <;> rfl

/-- A bound was there before, and the new one is at least as lax. -/
theorem lax_of_harmless {s t : Schema} (h : Harmless (rangeEdits s t)) (b : Bound) {y : Double}
    (hy : boundValue (boundsOf t) b = some y) :
    ∃ x, boundValue (boundsOf s) b = some x ∧
      Number.related b.demand.lax (.double x) (.double y) = true := by
  have own := fun e he => h e (List.mem_flatMap.mpr ⟨b, by cases b <;> decide, he⟩)
  obtain ⟨x, hx, agreed | harmless⟩ := value_of_harmless (fun _ => rfl) own hy
  · exact ⟨x, hx, Number.related_lax_of_same agreed _⟩
  · have shrinks : Range.mayShrink (rangeOf b x) (rangeOf b y) = false := harmless
    unfold Range.mayShrink rangeOf at shrinks
    dsimp only at shrinks
    rw [keeps?_self] at shrinks
    exact ⟨x, hx, by simpa using shrinks⟩

/-- A bound was there before, and a number within the old bound is within the new one. -/
theorem bound_of_harmless {s t : Schema} (h : Harmless (rangeEdits s t)) (b : Bound) {y : Double}
    (hy : boundValue (boundsOf t) b = some y) :
    ∃ x, boundValue (boundsOf s) b = some x ∧
      ∀ n : Number, n.related b.demand (.double x) = true → n.related b.demand (.double y) = true := by
  obtain ⟨x, hx, lax⟩ := lax_of_harmless h b hy
  exact ⟨x, hx, fun _ within => Number.related_trans within lax⟩

theorem length_of_int {length : Option Nat} {x : Int}
    (h : (do let n ← length; pure (n : Int)) = some x) : ∃ n, length = some n ∧ x = n := by
  cases length with
  | none => exact nomatch h
  | some n => exact ⟨n, rfl, (Option.some.inj h).symm⟩

/-- A text has the old format and pattern, and lengths within the old limits are within the new
ones. -/
theorem text_of_harmless {s t : Schema} (h : Harmless (textEdits s t)) :
    (∀ f, t.text.format = some f → s.text.format = some f) ∧
    (∀ p, t.text.pattern = some p → s.text.pattern = some p) ∧
    (∀ n, t.text.minLength = some n → ∃ m, s.text.minLength = some m ∧ n ≤ m) ∧
    ∀ n, t.text.maxLength = some n → ∃ m, s.text.maxLength = some m ∧ m ≤ n := by
  unfold textEdits at h
  refine ⟨fun f hf => ?_, fun p hp => ?_, fun n hn => ?_, fun n hn => ?_⟩
  · obtain ⟨x, hx, agreed | harmless⟩ := value_of_harmless (fun _ => rfl) h.left.left.left hf
    · rw [hx, eq_of_beq agreed]
    · exact nomatch harmless
  · obtain ⟨x, hx, agreed | harmless⟩ := value_of_harmless (fun _ => rfl) h.left.left.right hp
    · rw [hx, eq_of_beq agreed]
    · exact nomatch harmless
  · obtain ⟨x, hx, settled⟩ := value_of_harmless (fun _ => rfl) h.left.right
      (y := (n : Int)) (by rw [hn]; rfl)
    obtain ⟨m, hm, rfl⟩ := length_of_int hx
    refine ⟨m, hm, ?_⟩
    rcases settled with agreed | harmless
    · exact Int.ofNat_le.mp (Int.le_of_eq (eq_of_beq agreed).symm)
    · have grows : ¬(m : Int) < n := of_decide_eq_false harmless
      omega
  · obtain ⟨x, hx, settled⟩ := value_of_harmless (fun _ => rfl) h.right
      (y := (n : Int)) (by rw [hn]; rfl)
    obtain ⟨m, hm, rfl⟩ := length_of_int hx
    refine ⟨m, hm, ?_⟩
    rcases settled with agreed | harmless
    · exact Int.ofNat_le.mp (Int.le_of_eq (eq_of_beq agreed))
    · have shrinks : ¬(n : Int) < m := of_decide_eq_false harmless
      omega

/-- A required name was required before. -/
theorem required_of_harmless {s t : Schema} (h : Harmless (requiredEdits s t)) {name : String}
    (hname : name ∈ t.required) : name ∈ s.required := by
  by_contra fresh
  have added : Edit.requiredAdd name ∈ requiredEdits s t := by
    refine List.mem_append_right _ (List.mem_map_of_mem ?_)
    unfold Names.without
    rw [List.mem_filter]
    exact ⟨hname, by simpa using fresh⟩
  exact nomatch h _ added

/-- A property was declared before, if the old schema leaves others unrestricted. -/
theorem property_of_harmless {s t : Schema} (opened : isOpen s = true)
    (h : ∀ e, .report e ∈ propertyTasks s t → e.isBreaking = false) {name : String}
    (hname : (t.properties.lookup name).isSome) : (s.properties.lookup name).isSome := by
  by_contra fresh
  have added : .report (.propertyAdd (isOpen s) name) ∈ propertyTasks s t := by
    unfold propertyTasks
    refine List.mem_append_left _ (List.mem_append_right _ (List.mem_map_of_mem ?_))
    unfold Names.without
    rw [List.mem_filter]
    refine ⟨mem_propertyNames.mpr hname, ?_⟩
    rw [Bool.not_eq_true', List.contains_eq_mem, decide_eq_false_iff_not, mem_propertyNames]
    exact fresh
  have harmless := h _ added
  rw [opened] at harmless
  exact nomatch harmless

/-- Properties of both sides are compared. -/
theorem descend_property {s t u v : Schema} {name : String}
    (hs : s.properties.lookup name = some u) (ht : t.properties.lookup name = some v) :
    .descend (.property name) u v ∈ propertyTasks s t := by
  unfold propertyTasks
  refine List.mem_append_right _ (List.mem_filterMap.mpr ⟨name, ?_, by rw [hs, ht]⟩)
  unfold Names.common
  rw [List.mem_filter]
  refine ⟨mem_propertyNames.mpr (by rw [hs]; rfl), ?_⟩
  rw [List.contains_eq_mem, decide_eq_true_eq, mem_propertyNames, ht]
  rfl

/-- Rules for every item of both sides are compared. -/
theorem descend_items {s t u v : Schema} (hs : s.items = some (.every u))
    (ht : t.items = some (.every v)) : .descend .items u v ∈ itemTasks s t := by
  unfold itemTasks
  rw [hs, ht]
  exact List.mem_cons_self

end Task

/-! ## Rules on a value itself -/

namespace Json

/-- A value that equals a constant equals all that this constant equals. -/
theorem equal_of_equal {v x y : Json} (plain : PlainConst x) (h : v.equal x = true)
    (k : x.equal y = true) : v.equal y = true := by
  have left := kind_equal h
  have right := kind_equal k
  cases x with
  | arr xs => exact plain.elim
  | obj fs => exact plain.elim
  | null =>
    cases v with
    | null => exact k
    | _ => cases left
  | bool a =>
    cases v with
    | bool b =>
      have same : (b == a) = true := h
      rw [eq_of_beq same]
      exact k
    | _ => cases left
  | str a =>
    cases v with
    | str b =>
      have same : (b == a) = true := h
      rw [eq_of_beq same]
      exact k
    | _ => cases left
  | num a =>
    cases v with
    | num b =>
      cases y with
      | num c => exact Number.same_trans (show b.same a = true from h) k
      | _ => cases right
    | _ => cases left

end Json

namespace Schema

variable {meaning : TextMeaning} {s t : Schema} {v : Json}

/-- A value that a plain schema admits has one of the kinds of its effective type. -/
theorem PlainRules.hasKind_of_admits (h : s.PlainRules) (here : s.Admits meaning v) :
    ∃ k ∈ s.typing.admitted, v.hasKind k = true := by
  rcases h.typing_eq with ⟨k, kinds, single⟩ | ⟨c, -, const, single⟩ | ⟨-, -, any⟩
  · obtain ⟨j, hj, has⟩ := here.kind _ kinds
    rw [List.mem_singleton.mp hj] at has
    exact ⟨k, single ▸ Typing.mem_covered k, has⟩
  · refine ⟨v.kind, ?_, v.hasKind_kind⟩
    rw [single, Json.kind_equal (here.const c const)]
    exact Typing.mem_covered c.kind
  · exact ⟨v.kind, any ▸ Kind.mem_all v.kind, v.hasKind_kind⟩

/-- If no kind is lost, a value that was admitted has the kind that is asked for now. -/
theorem PlainRules.hasKind_of_kept (hs : s.PlainRules)
    (kept : ∀ k ∈ s.typing.admitted, k ∈ t.typing.admitted) (here : s.Admits meaning v) {k : Kind}
    (hk : t.kinds = some [k]) : v.hasKind k = true := by
  obtain ⟨j, admitted, has⟩ := hs.hasKind_of_admits here
  refine Json.hasKind_of_covered has ?_
  have admitted := kept j admitted
  rw [typing_of_kinds hk] at admitted
  exact admitted

/-- If no kind is lost and the new schema has a rule on items, so has the old one. -/
theorem PlainRules.items_of_kept (hs : s.PlainRules) (ht : t.PlainRules)
    (kept : ∀ k ∈ s.typing.admitted, k ∈ t.typing.admitted) (hw : t.items.isSome) :
    ∃ u, s.items = some (.every u) := by
  have array : t.typing.admitted = [.array] := by
    rw [typing_of_kinds (ht.array_iff_items.mpr hw)]
    rfl
  rw [array] at kept
  rcases hs.typing_eq with ⟨k, kinds, single⟩ | ⟨c, -, const, single⟩ | ⟨-, -, any⟩
  · obtain rfl := List.mem_singleton.mp (kept k (single ▸ Typing.mem_covered k))
    obtain ⟨rule, hrule⟩ := Option.isSome_iff_exists.mp (hs.array_iff_items.mp kinds)
    obtain ⟨u, rfl⟩ := hs.one_item_rule rule hrule
    exact ⟨u, hrule⟩
  · have kind := List.mem_singleton.mp (kept c.kind (single ▸ Typing.mem_covered c.kind))
    have plain := hs.const c const
    cases c with
    | arr xs => exact nomatch plain
    | _ => exact nomatch kind
  · exact nomatch List.mem_singleton.mp (kept .null (any ▸ Kind.mem_all .null))

/-- The edits of the rules of a plain pair on a value itself. -/
def ruleEdits (s t : Schema) : List Edit :=
  Task.typeEdits s t ++ Task.constEdits s t ++ Task.rangeEdits s t ++ Task.requiredEdits s t ++
    Task.textEdits s t

/-- Bounds, rules on strings and required names that were edited harmlessly admit what they
admitted. -/
theorem Admits.of_harmless (boundsOld : Task.boundsOf s = s.number)
    (boundsNew : Task.boundsOf t = t.number) (bounds : Task.Harmless (Task.rangeEdits s t))
    (names : Task.Harmless (Task.requiredEdits s t)) (text : Task.Harmless (Task.textEdits s t))
    (kind : ∀ ks, t.kinds = some ks → ∃ k ∈ ks, v.hasKind k = true)
    (const : ∀ c, t.const = some c → v.equal c = true) (here : s.Admits meaning v) :
    t.Admits meaning v := by
  obtain ⟨format, pattern, minLength, maxLength⟩ := Task.text_of_harmless text
  refine ⟨kind, const, ?bound, ?minLength, ?maxLength, ?format, ?pattern, ?required⟩
  case bound =>
    intro n hn b y hy
    rw [← boundsNew] at hy
    obtain ⟨x, hx, within⟩ := Task.bound_of_harmless bounds b hy
    rw [boundsOld] at hx
    exact within n (here.bound n hn b x hx)
  case minLength =>
    intro text htext n hn
    obtain ⟨m, hm, le⟩ := minLength n hn
    exact Nat.le_trans le (here.minLength text htext m hm)
  case maxLength =>
    intro text htext n hn
    obtain ⟨m, hm, le⟩ := maxLength n hn
    exact Nat.le_trans (here.maxLength text htext m hm) le
  case format =>
    intro text htext f hf
    exact here.format text htext f (format f hf)
  case pattern =>
    intro text htext p hp
    exact here.pattern text htext p (pattern p hp)
  case required =>
    intro fs hfs name hname
    exact here.required fs hfs name (Task.required_of_harmless names hname)

/-- Rules that were edited harmlessly admit what they admitted. -/
theorem PlainRules.admits_of_harmless (hs : s.PlainRules) (ht : t.PlainRules)
    (h : Task.Harmless (ruleEdits s t)) (here : s.Admits meaning v) : t.Admits meaning v := by
  have const := h.left.left.left.right
  have kinds := h.left.left.left.left
  refine here.of_harmless hs.boundsOf_eq ht.boundsOf_eq h.left.left.right h.left.right h.right ?kind
    ?const
  case kind =>
    intro ks hks
    obtain ⟨k, rfl⟩ := ht.kinds ks hks
    have kept : ∀ k ∈ s.typing.admitted, k ∈ t.typing.admitted := fun _ =>
      Task.typing_of_harmless kinds
    exact ⟨k, List.mem_cons_self, hs.hasKind_of_kept kept here hks⟩
  case const =>
    intro y hy
    obtain ⟨x, hx, same⟩ := Task.const_of_harmless const hy
    exact Json.equal_of_equal (hs.const x hx) (here.const x hx) same

end Schema

/-! ## The whole comparison -/

namespace Course

variable {setting : Setting} {s t : Schema}

def plainTasks (s t : Schema) : List Task :=
  (Task.typeEdits s t).map .report ++ (Task.constEdits s t).map .report ++ Task.facetTasks s t

theorem tasksOf_plain (setting : Setting) (hs : s.PlainRules) (ht : t.PlainRules) (path : String) :
    tasksOf setting ⟨path, s, t, false⟩ = plainTasks s t := by
  have old : oldOf setting ⟨path, s, t, false⟩ = s :=
    References.follow_of_no_reference setting.old hs.reference
  have new : newOf setting ⟨path, s, t, false⟩ = t :=
    References.follow_of_no_reference setting.new ht.reference
  have whole : isSplit setting ⟨path, s, t, false⟩ = false := by
    unfold isSplit
    rw [old, new, hs.split?_eq_none, ht.split?_eq_none]
    rfl
  unfold tasksOf Comparing.tasks
  rw [whole, old, new, hs.split_eq, ht.split_eq, hs.unfoldConst_eq, ht.unfoldConst_eq]
  rfl

/-- The rules on a value itself are compared. -/
theorem report_mem_plainTasks {e : Edit} (h : e ∈ ruleEdits s t) :
    .report e ∈ plainTasks s t := by
  simp only [ruleEdits, List.mem_append] at h
  simp only [plainTasks, Task.facetTasks, List.mem_append, List.mem_map, Task.report.injEq,
    exists_eq_right]
  tauto

theorem property_mem_plainTasks {task : Task} (h : task ∈ Task.propertyTasks s t) :
    task ∈ plainTasks s t := by
  simp only [plainTasks, Task.facetTasks, List.mem_append]
  tauto

theorem item_mem_plainTasks {task : Task} (h : task ∈ Task.itemTasks s t) :
    task ∈ plainTasks s t := by
  simp only [plainTasks, Task.facetTasks, List.mem_append]
  tauto

end Course

namespace Comparison

/-- What it takes for a comparison to call two schemas compatible. -/
theorem harmless_of_compatible {c : Comparison} (h : c.isBackwardCompatible = .ok true) :
    c.fault = none ∧ ∀ change ∈ c.reported, change.isBreaking = false := by
  unfold isBackwardCompatible breaking changes at h
  cases failed : c.fault with
  | none =>
    rw [failed] at h
    refine ⟨rfl, fun change hchange => ?_⟩
    have none_breaking : (c.reported.filter Change.isBreaking).isEmpty = true := Except.ok.inj h
    rw [List.isEmpty_iff, List.filter_eq_nil_iff] at none_breaking
    exact Bool.eq_false_iff.mpr (none_breaking change hchange)
  | some e =>
    rw [failed] at h
    exact nomatch h

/-- The verdict of a comparison that came to its end. -/
theorem verdict_of_changes {c : Comparison} {changes : List Change} (h : c.changes = .ok changes) :
    c.isBackwardCompatible = .ok (changes.filter Change.isBreaking).isEmpty := by
  unfold isBackwardCompatible breaking
  rw [h]
  rfl

/-! ### An example -/

/-- An object with a list of numbers of a kind from a least one on. -/
def statistics (kind : String) (least : Int) : Json :=
  .obj [("type", .str "object"), ("required", .arr [.str "counts"]),
    ("properties", .obj [("counts", .obj [("type", .str "array"),
      ("items", .obj [("type", .str kind), ("minimum", .num (.int least))])])])]

def countSchema (kind : Kind) (least : Int) : Schema :=
  { Schema.everything with
    kinds := some [kind]
    number := { NumberRules.none with minimum := some (Double.ofInt least) } }

def countsSchema (kind : Kind) (least : Int) : Schema :=
  { Schema.everything with
    kinds := some [.array]
    items := some (.every (countSchema kind least)) }

def statisticsSchema (kind : Kind) (least : Int) : Schema :=
  { Schema.everything with
    kinds := some [.object]
    properties := [("counts", countsSchema kind least)]
    required := ["counts"] }

theorem statisticsSchema_plain (kind : Kind) (least : Int) (leaf : kind ≠ .array) :
    (statisticsSchema kind least).Plain := by
  have count : (countSchema kind least).Plain := by
    refine .intro ?_ (fun _ _ h => ?_) (fun _ h => ?_)
    · constructor <;> simp [countSchema, everything, leaf]
    · cases h
    · cases h
  have counts : (countsSchema kind least).Plain := by
    refine .intro ?_ (fun _ _ h => ?_) ?_
    · constructor <;> simp [countsSchema, everything]
    · cases h
    · rintro u hu
      obtain rfl := Items.every.inj (Option.some.inj hu)
      exact count
  refine .intro ?_ ?_ (fun _ h => ?_)
  · constructor <;> simp [statisticsSchema, everything]
  · intro name u hu
    obtain ⟨-, rfl⟩ := Prod.mk.inj (List.mem_singleton.mp (Fields.mem_of_lookup hu))
    exact counts
  · cases h

/-- Formats and patterns that every text has. -/
def anyText : TextMeaning := ⟨fun _ _ => True, fun _ _ => True⟩

end Comparison

end SchemaDrift
