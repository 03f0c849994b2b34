import SchemaDrift.Proofs.Descents
import SchemaDrift.Proofs.Json.Digits
import SchemaDrift.Proofs.Pointer

/-!
# Paths locate

The path of a change is that of a chain of descents that leads to its pair. If the names of
properties cannot be taken for anything else, the path can be read back, and no other chain has it,
unless a chain comes to a branch that stands for a kind and has no place of its own.

* `PlainName` are the names that cannot be taken for another step or for more than one, and
  `Schema.PlainlyNamed` the schemas with such names only.
* `Course.stepsOf` reads a path, and `Course.stepsOf_pathOf` says that it reads what was written.
* `Setting.paths_locate` is the main statement.
-/

namespace SchemaDrift

/-! ## Labels of steps -/

/-- A name that is one label of a path and is not the label of another step. -/
@[mk_iff]
structure PlainName (name : String) : Prop where
  noDot : '.' ∉ name.toList
  notItems : name ≠ "?"
  notIndex : name ≠ "" → name.toList.all Char.isDigit = false
  noAngle : name.toList.head? ≠ some '<'

instance (name : String) : Decidable (PlainName name) :=
  decidable_of_iff _ (plainName_iff name).symm

namespace Step

/-- What stands behind the dot in the suffix of a step. -/
def label : Step → String
  | .property name => name
  | .position index => toString index
  | .items => "?"
  | .additional => "<additionalProperties>"
  | .branch index => "<anyOf:" ++ toString index ++ ">"
  | .splitBranch => ""

/-- The step with a given label. -/
def ofLabel (label : String) : Step :=
  if label = "?" then .items
  else if label = "<additionalProperties>" then .additional
  else if label.toList.head? = some '<' then
    .branch (Nat.ofDigitChars 10 ((label.toList.drop 7).takeWhile Char.isDigit) 0)
  else if label ≠ "" ∧ label.toList.all Char.isDigit then
    .position (Nat.ofDigitChars 10 label.toList 0)
  else .property label

/-- A step with a label of its own. -/
def Plain : Step → Prop
  | .property name => PlainName name
  | .splitBranch => False
  | _ => True

variable {step : Step}

theorem suffix_eq (h : step.Plain) : step.suffix = "." ++ step.label := by
  cases step with
  | splitBranch => exact h.elim
  | branch index => simp only [suffix, label, ← String.append_assoc]; rfl
  | _ => rfl

theorem noDot_label (h : step.Plain) : '.' ∉ step.label.toList := by
  have digits (n : Nat) : '.' ∉ Nat.toDigits 10 n := fun hmem =>
    absurd (Json.isDigit_of_mem_digits hmem) (by decide)
  cases step with
  | splitBranch => exact h.elim
  | property name => exact h.noDot
  | position index => simp [label, digits index]
  | items => simp [label]
  | additional => simp [label]
  | branch index => simp [label, digits index]

theorem ofLabel_property {name : String} (h : PlainName name) : ofLabel name = .property name := by
  have additional : name ≠ "<additionalProperties>" := fun same => h.noAngle (by simp [same])
  have index : ¬(name ≠ "" ∧ name.toList.all Char.isDigit = true) := by
    rintro ⟨nonempty, digits⟩
    exact nomatch (h.notIndex nonempty).symm.trans digits
  rw [ofLabel, if_neg h.notItems, if_neg additional, if_neg h.noAngle, if_neg index]

theorem ofLabel_position (index : Nat) : ofLabel (toString index) = .position index := by
  have spelled : (toString index).toList = Nat.toDigits 10 index := Nat.toList_repr
  obtain ⟨c, rest, lead, digit⟩ := Json.digits_lead index
  -- The labels that are tried before an index all start with a sign.
  have other {label : String} {d : Char} (hd : label.toList.head? = some d)
      (sign : d.isDigit = false) : toString index ≠ label := by
    rintro rfl
    rw [spelled, lead] at hd
    rw [Option.some.inj hd, sign] at digit
    exact nomatch digit
  have angle : (toString index).toList.head? ≠ some '<' := fun head => other head (by decide) rfl
  have digits : toString index ≠ "" ∧ (toString index).toList.all Char.isDigit = true := by
    rw [spelled]
    refine ⟨fun empty => ?_, List.all_eq_true.mpr fun _ => Json.isDigit_of_mem_digits⟩
    exact Nat.toDigits_ne_nil (spelled.symm.trans (String.toList_eq_nil_iff.mpr empty))
  rw [ofLabel, if_neg (other rfl (by decide)), if_neg (other rfl (by decide)), if_neg angle,
    if_pos digits, spelled, Nat.ofDigitChars_ten_toDigits]

theorem ofLabel_branch (index : Nat) :
    ofLabel ("<anyOf:" ++ toString index ++ ">") = .branch index := by
  have spelled : ("<anyOf:" ++ toString index ++ ">").toList =
      "<anyOf:".toList ++ (Nat.toDigits 10 index ++ ['>']) := by simp
  have items : "<anyOf:" ++ toString index ++ ">" ≠ "?" := fun same => by
    simpa [spelled] using congrArg String.toList same
  have additional : "<anyOf:" ++ toString index ++ ">" ≠ "<additionalProperties>" := fun same => by
    simpa [spelled] using congrArg String.toList same
  have closed : Json.StopsDigits ['>'] := Json.stopsDigits_of_lead (by decide) []
  rw [ofLabel, if_neg items, if_neg additional, spelled, if_pos (by simp),
    List.drop_left' (by simp), Json.takeWhile_digits index closed, Nat.ofDigitChars_ten_toDigits]

/-- The label of a step tells which one it is. -/
theorem ofLabel_label (h : step.Plain) : ofLabel step.label = step := by
  cases step with
  | splitBranch => exact h.elim
  | property name => exact ofLabel_property h
  | position index => exact ofLabel_position index
  | items => rfl
  | additional => rfl
  | branch index => exact ofLabel_branch index

end Step

namespace Course

/-! ## Reading paths -/

/-- The steps that a path tells. -/
def stepsOf (path : String) : List Step :=
  ((path.toList.splitOn '.').drop 1).map fun label => Step.ofLabel (String.ofList label)

variable {links : List Link}

theorem pathOf_toList (plain : ∀ link ∈ links, link.step.Plain) :
    (pathOf links).toList = (links.map fun link => link.step.label.toList).flatMap ('.' :: ·) := by
  induction links with
  | nil => rfl
  | cons link links ih =>
    rw [pathOf, Step.suffix_eq (plain link List.mem_cons_self), String.toList_append,
      String.toList_append, ih fun l hl => plain l (List.mem_cons_of_mem _ hl)]
    rfl

/-- The path of a chain tells its steps. -/
theorem stepsOf_pathOf (plain : ∀ link ∈ links, link.step.Plain) :
    stepsOf (pathOf links) = links.map Link.step := by
  have noDot : ∀ l ∈ [] :: links.map (fun link => link.step.label.toList), '.' ∉ l := by
    intro l hl
    rcases List.mem_cons.mp hl with rfl | hl
    · exact List.not_mem_nil
    · obtain ⟨link, hlink, rfl⟩ := List.mem_map.mp hl
      exact Step.noDot_label (plain link hlink)
  -- A path starts with a dot, so the first label that it is split into is empty.
  have joined : (pathOf links).toList =
      ['.'].intercalate ([] :: links.map fun link => link.step.label.toList) := by
    rw [intercalate_cons, pathOf_toList plain, List.nil_append]
  rw [stepsOf, joined, List.splitOn_intercalate '.' noDot (List.cons_ne_nil _ _), List.drop_one,
    List.tail_cons, List.map_map]
  refine List.map_congr_left fun link hlink => ?_
  show Step.ofLabel (String.ofList link.step.label.toList) = link.step
  rw [String.ofList_toList, Step.ofLabel_label (plain link hlink)]

end Course

/-! ## Schemas with plain names -/

/-- A key of an object, or of an object that is a value of a key, however far down. -/
inductive Json.HasKey (key : String) : Json → Prop where
  | here {fs : List (String × Json)} {x : Json} : (key, x) ∈ fs → HasKey key (.obj fs)
  | value {fs : List (String × Json)} {other : String} {x : Json} :
      (other, x) ∈ fs → HasKey key x → HasKey key (.obj fs)

namespace Schema

/-- The properties of a schema and the keys of its constant have plain names. -/
structure PlainlyNamed (s : Schema) : Prop where
  property : ∀ name u, (name, u) ∈ s.properties → PlainName name
  const : ∀ x, s.const = some x → ∀ key, x.HasKey key → PlainName key

namespace PlainlyNamed

variable {s : Schema}

theorem of_nothing_named (properties : s.properties = []) (const : s.const = none) :
    s.PlainlyNamed where
  property name u h := by
    rw [properties] at h
    exact absurd h List.not_mem_nil
  const x h := nomatch const.symm.trans h

theorem everything : everything.PlainlyNamed := of_nothing_named rfl rfl

theorem nothing : nothing.Throughout PlainlyNamed := by
  refine throughout_iff.mpr ⟨of_nothing_named rfl rfl, fun u hu => ?_⟩
  obtain rfl := eq_everything_of_child_nothing hu
  exact throughout_iff.mpr ⟨everything, fun w hw => absurd hw not_child_everything⟩

theorem split (h : s.Throughout PlainlyNamed) : s.split.Throughout PlainlyNamed := by
  refine Throughout.split h ?_ fun k => ?_
  · unfold Schema.split split?
    split
    · exact of_nothing_named rfl rfl
    · exact h.here
  · cases k with
    | object => exact ⟨h.here.property, nofun⟩
    | _ => exact of_nothing_named rfl rfl

theorem ofConst {x : Json} (h : ∀ key, x.HasKey key → PlainName key) :
    (ofConst x).Throughout PlainlyNamed := by
  refine throughout_ofConst_of (Q := fun x => ∀ key, x.HasKey key → PlainName key) (fun y hy => ?_)
    (fun _ _ _ hfs hy other hother => hfs other (.value hy hother)) h
  by_cases object : y.kind = .object
  · obtain ⟨fs, rfl⟩ := obj_of_kind object
    refine ⟨fun name u hu => ?_, nofun⟩
    obtain ⟨z, hz, -⟩ := mem_constTable hu
    exact hy name (.here hz)
  · rw [ofConst_of_kind object]
    refine ⟨fun _ _ hu => absurd hu List.not_mem_nil, fun z hz => ?_⟩
    obtain rfl := Option.some.inj hz
    exact hy

theorem unfoldConst (h : s.Throughout PlainlyNamed) : s.unfoldConst.Throughout PlainlyNamed := by
  refine Throughout.unfoldConst h ?_ fun x hx => ofConst (h.here.const x hx)
  unfold Schema.unfoldConst
  split
  · next fs hs =>
    refine ⟨fun name u hu => ?_, nofun⟩
    rcases Fields.mem_putAll hu with added | kept
    · obtain ⟨z, hz, -⟩ := mem_constTable added
      exact h.here.const _ hs name (.here hz)
    · exact h.here.property name u kept
  · exact h.here

theorem opened {root : Schema} (hroot : root.Throughout PlainlyNamed)
    (h : s.Throughout PlainlyNamed) :
    (Course.opened (.ofRoot root) s).Throughout PlainlyNamed :=
  unfoldConst (split (References.follow_throughout hroot h))

end PlainlyNamed

end Schema

namespace Course

open Schema

/-! ## Different chains have different paths -/

variable {old new s t u w : Schema} {limit : Nat}

/-- Below a schema with plain names are such schemas, under plain names. -/
theorem Descent.plain {step : Step} (hroot : old.Throughout PlainlyNamed)
    (hs : s.Throughout PlainlyNamed) (h : Descent (.ofRoots old new limit) s t step u w) :
    u.Throughout PlainlyNamed ∧ (step ≠ .splitBranch → step.Plain) := by
  have opened := PlainlyNamed.opened hroot hs
  have partner {j : Nat} (partners : Partners (.ofRoots old new limit) s t j u w) :
      u.Throughout PlainlyNamed := by
    obtain ⟨olds, -, -, -, left, -⟩ := partners
    rcases List.mem_append.mp (List.mem_of_getElem? left) with hu | hu
    · exact (PlainlyNamed.split (References.follow_throughout hroot hs)).child (.branch olds hu)
    · rw [List.eq_of_mem_replicate hu]
      exact PlainlyNamed.nothing
  cases h with
  | property left _ =>
    have declared := Fields.mem_of_lookup left
    exact ⟨opened.child (.property declared), fun _ => opened.here.property _ _ declared⟩
  | position left _ _ found _ =>
    exact ⟨opened.child (Task.child_of_at? left found), fun _ => trivial⟩
  | items left _ => exact ⟨opened.child (.every left), fun _ => trivial⟩
  | additional left _ => exact ⟨opened.child (.additional left), fun _ => trivial⟩
  | branch _ partners => exact ⟨partner partners, fun _ => trivial⟩
  | splitBranch _ partners => exact ⟨partner partners, fun own => absurd rfl own⟩

theorem Chain.plain (hroot : old.Throughout PlainlyNamed) {links : List Link}
    (hs : s.Throughout PlainlyNamed) (h : Chain (.ofRoots old new limit) s t links u w)
    (own : ∀ link ∈ links, link.step ≠ .splitBranch) : ∀ link ∈ links, link.step.Plain := by
  induction h with
  | nil => exact nofun
  | cons descent _ ih =>
    obtain ⟨below, named⟩ := descent.plain hroot hs
    intro link hlink
    rcases List.mem_cons.mp hlink with rfl | hlink
    · exact named (own _ List.mem_cons_self)
    · exact ih below (fun l hl => own l (List.mem_cons_of_mem _ hl)) link hlink

end Course

namespace Setting

open Course Schema

/-- Whatever is reported by a comparison from the roots, whether it comes to its end or fails and
whatever prices it finds in the memo, is an edit of a pair that a chain of descents from the roots
leads to, at the path of the chain. If the properties and the keys of constants on the left have
plain names, the path belongs to this chain only, among the chains that do not come to a branch on
the right that stands for a kind. -/
theorem paths_locate (old new : Schema) (limit : DepthLimit) :
    (∀ aligned outcome, (ofRoots old new limit.value).Outcomes
        (fun σ => σ.answer ⟨0, ⟨"", old, new, aligned⟩⟩) outcome →
      ∀ c ∈ outcome.emitted, ∃ links s t, Chain (ofRoots old new limit.value) old new links s t ∧
        c.path = pathOf links ∧ IsEdit (ofRoots old new limit.value) s t c.edit) ∧
    (old.Throughout PlainlyNamed → ∀ links links' s t s' t',
      Chain (ofRoots old new limit.value) old new links s t →
      Chain (ofRoots old new limit.value) old new links' s' t' →
      (∀ link ∈ links, link.step ≠ .splitBranch) → (∀ link ∈ links', link.step ≠ .splitBranch) →
      pathOf links = pathOf links' → links = links') := by
  refine ⟨fun aligned outcome h c hc => ?_,
    fun named links links' s t s' t' chain chain' own own' same => ?_⟩
  · obtain ⟨levels, first⟩ := prefix_of_outcome rfl h
    obtain ⟨links, s, t, chain, path, edit⟩ := chain_of_within (first.subset hc)
    exact ⟨links, s, t, chain, path.trans (String.empty_append), edit⟩
  · have distinct (costs : Assignment.Costs) : (Assignment.solve costs).Nodup :=
      (Assignment.solve_perm costs).nodup_iff.mpr List.nodup_range
    refine chain.unique distinct chain' own ?_
    rw [← stepsOf_pathOf (chain.plain named named own), same,
      stepsOf_pathOf (chain'.plain named named own')]

/-- A text of a least length. -/
def textSchema (minLength : Option Nat) : Schema :=
  { Schema.everything with kinds := some [.string], text := { StringRules.none with minLength } }

/-- Two texts at the first two positions. -/
def twoLines : Schema :=
  { Schema.everything with items := some (.positions [textSchema none, textSchema (some 1)]) }

/-- Texts at all positions. -/
def anyLines : Schema := { Schema.everything with items := some (.every (textSchema none)) }

/-- A constant object with a code. -/
def stateSchema (code : Int) : Schema :=
  { Schema.everything with const := some (.obj [("code", .num (.int code))]) }

/-- A text as the only branch. -/
def priceSchema (minLength : Option Nat) : Schema :=
  { Schema.everything with anyOf := some [textSchema minLength] }

/-- An object with lines, a state and a price. -/
def orderSchema (lines state price : Schema) : Schema :=
  { Schema.everything with properties := [("lines", lines), ("state", state), ("price", price)] }

def orders : Schema := orderSchema twoLines (stateSchema 1) (priceSchema (some 2))

def laterOrders : Schema := orderSchema anyLines (stateSchema 2) (priceSchema none)

/-- The way to the second line. -/
def secondLine : List Link :=
  [⟨.property "lines", twoLines, anyLines⟩, ⟨.position 1, textSchema (some 1), textSchema none⟩]

theorem textSchema_plainlyNamed (minLength : Option Nat) :
    (textSchema minLength).Throughout PlainlyNamed :=
  throughout_iff.mpr ⟨.of_nothing_named rfl rfl, fun u hu => by cases hu <;> contradiction⟩

theorem twoLines_plainlyNamed : twoLines.Throughout PlainlyNamed := by
  refine throughout_iff.mpr ⟨.of_nothing_named rfl rfl, fun u hu => ?_⟩
  cases hu with
  | position items hmem =>
    obtain rfl := Items.positions.inj (Option.some.inj items)
    rcases List.mem_pair.mp hmem with rfl | rfl <;> exact textSchema_plainlyNamed _
  | every items => exact nomatch Option.some.inj items
  | _ => contradiction

theorem stateSchema_plainlyNamed (code : Int) : (stateSchema code).Throughout PlainlyNamed := by
  refine throughout_iff.mpr ⟨⟨nofun, fun x hx key hkey => ?_⟩, fun u hu => ?_⟩
  · obtain rfl := Option.some.inj hx
    cases hkey with
    | here hmem =>
      obtain ⟨rfl, -⟩ := Prod.mk.inj (List.mem_singleton.mp hmem)
      decide +kernel
    | value hmem below =>
      obtain ⟨-, rfl⟩ := Prod.mk.inj (List.mem_singleton.mp hmem)
      exact nomatch below
  · cases hu <;> contradiction

theorem priceSchema_plainlyNamed (minLength : Option Nat) :
    (priceSchema minLength).Throughout PlainlyNamed := by
  refine throughout_iff.mpr ⟨.of_nothing_named rfl rfl, fun u hu => ?_⟩
  cases hu with
  | branch branches hmem =>
    obtain rfl := Option.some.inj branches
    obtain rfl := List.mem_singleton.mp hmem
    exact textSchema_plainlyNamed _
  | _ => contradiction

theorem orderSchema_plainlyNamed {lines state price : Schema} (hl : lines.Throughout PlainlyNamed)
    (hs : state.Throughout PlainlyNamed) (hp : price.Throughout PlainlyNamed) :
    (orderSchema lines state price).Throughout PlainlyNamed := by
  have names : ∀ name ∈ ["lines", "state", "price"], PlainName name := by decide +kernel
  have rules : ∀ f ∈ (orderSchema lines state price).properties, f.2.Throughout PlainlyNamed :=
    List.forall_mem_cons.mpr ⟨hl, List.forall_mem_cons.mpr ⟨hs, List.forall_mem_singleton.mpr hp⟩⟩
  refine throughout_iff.mpr ⟨⟨fun name u hu => ?_, nofun⟩, fun u hu => ?_⟩
  · exact names name (List.mem_map_of_mem (f := Prod.fst) hu)
  · cases hu with
    | property hu => exact rules _ hu
    | _ => contradiction

theorem orders_plainlyNamed : orders.Throughout PlainlyNamed :=
  orderSchema_plainlyNamed twoLines_plainlyNamed (stateSchema_plainlyNamed 1)
    (priceSchema_plainlyNamed _)

/-- A position, a branch and a key of a constant are located, and the path of the second line is
that of no other chain. -/
theorem paths_locate_orders :
    (ofRoots orders laterOrders 4).Outcomes
      (fun σ => σ.answer ⟨0, ⟨"", orders, laterOrders, false⟩⟩)
      ((ofRoots orders laterOrders 4).answer ⟨0, ⟨"", orders, laterOrders, false⟩⟩
        (.empty 1, [])).1 ∧
    ((ofRoots orders laterOrders 4).answer ⟨0, ⟨"", orders, laterOrders, false⟩⟩
        (.empty 1, [])).1.emitted.map Change.path =
      [".lines", ".lines.1", ".price.<anyOf:0>", ".state.code", ".state.code"] ∧
    (∀ c ∈ ((ofRoots orders laterOrders 4).answer ⟨0, ⟨"", orders, laterOrders, false⟩⟩
        (.empty 1, [])).1.emitted,
      ∃ links s t, Chain (ofRoots orders laterOrders 4) orders laterOrders links s t ∧
        c.path = pathOf links ∧ IsEdit (ofRoots orders laterOrders 4) s t c.edit) ∧
    orders.Throughout PlainlyNamed ∧
    Chain (ofRoots orders laterOrders 4) orders laterOrders secondLine (textSchema (some 1))
      (textSchema none) ∧
    (∀ link ∈ secondLine, link.step ≠ .splitBranch) ∧ pathOf secondLine = ".lines.1" ∧
    ∀ links s t, Chain (ofRoots orders laterOrders 4) orders laterOrders links s t →
      (∀ link ∈ links, link.step ≠ .splitBranch) → pathOf links = ".lines.1" →
        links = secondLine := by
  have reached : (ofRoots orders laterOrders 4).Outcomes
      (fun σ => σ.answer ⟨0, ⟨"", orders, laterOrders, false⟩⟩)
      ((ofRoots orders laterOrders 4).answer ⟨0, ⟨"", orders, laterOrders, false⟩⟩
        (.empty 1, [])).1 := .remembering [] (.empty (Nat.le_refl 1))
  have chain : Chain (ofRoots orders laterOrders 4) orders laterOrders secondLine
      (textSchema (some 1)) (textSchema none) :=
    .cons (.property rfl rfl) (.cons (.position rfl rfl (.inl rfl) rfl rfl) (.nil _ _))
  have own : ∀ link ∈ secondLine, link.step ≠ .splitBranch := by
    intro link hlink
    rcases List.mem_pair.mp hlink with rfl | rfl <;> exact nofun
  have path : pathOf secondLine = ".lines.1" := by decide +kernel
  obtain ⟨located, unique⟩ := paths_locate orders laterOrders ⟨4, by decide⟩
  refine ⟨reached, by decide +kernel, located false _ reached, orders_plainlyNamed, chain, own,
    path, fun links s t chain' own' path' => ?_⟩
  exact unique orders_plainlyNamed links secondLine s t _ _ chain' chain own' own
    (path'.trans path.symm)

end Setting

end SchemaDrift
