import SchemaDrift.Proofs.Json.Equality
import SchemaDrift.Proofs.Related
import SchemaDrift.Proofs.Schema.Parts
import SchemaDrift.Schema.Likeness
import SchemaDrift.Schema.References
import SchemaDrift.Schema.Rewriting

/-!
# Schemas that agree up to order

Two schemas agree if they have the same rules, where properties may come in any order, and so may
the names in a list of kinds and the branches of `anyOf`, and where constants need only be equal as
JSON values.

* `Schema.Agree` is the largest relation with this property, `Schema.Matches` what it asks of a
  pair.
* `Schema.typing_agree`: schemas that agree have effective types that agree.
* `Schema.split_agree` and `Schema.unfoldConst_agree`: so do they after they are rewritten.
* `References.follow_agree`: so do they after their references are followed, if what the references
  lead to agrees.
-/

namespace SchemaDrift

/-- Equal values without repeated keys. -/
structure Json.Coincide (x y : Json) : Prop where
  equal : x.equal y = true
  left : x.Throughout Json.DistinctKeys
  right : y.Throughout Json.DistinctKeys

namespace Schema

/-! ## Agreement -/

/-- Rules on items that are of the same form and have schemas related by `R`. -/
inductive ItemsMatch {α β : Type} (R : α → β → Prop) : Items α → Items β → Prop where
  | every {s : α} {t : β} : R s t → ItemsMatch R (.every s) (.every t)
  | positions {ss : List α} {ts : List β} :
    List.Forall₂ R ss ts → ItemsMatch R (.positions ss) (.positions ts)

/-- Branches related by `R` one by one after those on the right are rearranged. -/
def BranchesMatch (R : Schema → Schema → Prop) (ss ts : List Schema) : Prop :=
  ∃ us, List.Forall₂ R ss us ∧ us.Perm ts

/-- What it takes for two schemas to agree if `R` says which of their subschemas do. -/
structure Matches (R : Schema → Schema → Prop) (s t : Schema) : Prop where
  kinds : Option.Rel List.Perm s.kinds t.kinds
  const : Option.Rel Json.Coincide s.const t.const
  number : s.number.alike t.number = true
  text : s.text = t.text
  properties : ∀ name, Option.Rel R (s.properties.lookup name) (t.properties.lookup name)
  required : s.required = t.required
  additional : Option.Rel R s.additional t.additional
  items : Option.Rel (ItemsMatch R) s.items t.items
  anyOf : Option.Rel (BranchesMatch R) s.anyOf t.anyOf
  negated : Option.Rel R s.negated t.negated
  reference : s.reference = t.reference

theorem ItemsMatch.mono {α β : Type} {R S : α → β → Prop} (h : ∀ s t, R s t → S s t)
    {x : Items α} {y : Items β} (hxy : ItemsMatch R x y) : ItemsMatch S x y := by
  cases hxy with
  | every hst => exact .every (h _ _ hst)
  | positions hst => exact .positions (hst.imp h)

theorem BranchesMatch.mono {R S : Schema → Schema → Prop} (h : ∀ s t, R s t → S s t)
    {ss ts : List Schema} (hst : BranchesMatch R ss ts) : BranchesMatch S ss ts := by
  obtain ⟨us, paired, arranged⟩ := hst
  exact ⟨us, paired.imp h, arranged⟩

theorem Matches.mono {R S : Schema → Schema → Prop} (h : ∀ s t, R s t → S s t) {s t : Schema}
    (m : Matches R s t) : Matches S s t where
  kinds := m.kinds
  const := m.const
  number := m.number
  text := m.text
  properties name := optionRel_mono (fun a b _ => h a b) (m.properties name)
  required := m.required
  additional := optionRel_mono (fun a b _ => h a b) m.additional
  items := optionRel_mono (fun _ _ _ => ItemsMatch.mono h) m.items
  anyOf := optionRel_mono (fun _ _ _ => BranchesMatch.mono h) m.anyOf
  negated := optionRel_mono (fun a b _ => h a b) m.negated
  reference := m.reference

/-- Two schemas agree: some relation holds between them that asks as much of subschemas. -/
def Agree (s t : Schema) : Prop := ∃ R, (∀ a b, R a b → Matches R a b) ∧ R s t

namespace Agree

theorem unfold {s t : Schema} (h : Agree s t) : Matches Agree s t := by
  obtain ⟨R, closed, hst⟩ := h
  exact (closed s t hst).mono fun a b hab => ⟨R, closed, hab⟩

theorem intro {s t : Schema} (m : Matches Agree s t) : Agree s t := by
  refine ⟨fun a b => Matches Agree a b, fun a b hab => ?_, m⟩
  exact hab.mono fun c d hcd => hcd.unfold

end Agree

/-- The schema without rules agrees with itself. -/
theorem matches_everything : Matches Agree everything everything where
  kinds := .none
  const := .none
  number := rfl
  text := rfl
  properties _ := .none
  required := rfl
  additional := .none
  items := .none
  anyOf := .none
  negated := .none
  reference := rfl

/-! ## Rules that are present on both sides -/

theorem boundsAlike_isNone {a b : Option Double} (h : boundsAlike a b = true) :
    a = none ↔ b = none := by
  cases a <;> cases b <;> simp_all [boundsAlike]

theorem numberRules_isEmpty {a b : NumberRules} (h : a.alike b = true) : a.isEmpty = b.isEmpty := by
  obtain ⟨a₁, a₂, a₃, a₄⟩ := a
  obtain ⟨b₁, b₂, b₃, b₄⟩ := b
  simp only [NumberRules.alike, Bool.and_eq_true] at h
  obtain ⟨⟨⟨h₁, h₂⟩, h₃⟩, h₄⟩ := h
  simp only [NumberRules.isEmpty, NumberRules.none, NumberRules.mk.injEq, boundsAlike_isNone h₁,
    boundsAlike_isNone h₂, boundsAlike_isNone h₃, boundsAlike_isNone h₄]

theorem isEmpty_of_lookup {α β : Type} {R : α → β → Prop} {fs : List (String × α)}
    {gs : List (String × β)} (h : ∀ name, Option.Rel R (fs.lookup name) (gs.lookup name)) :
    fs.isEmpty = gs.isEmpty := by
  cases fs with
  | nil =>
    cases gs with
    | nil => rfl
    | cons g gs =>
      have found := isSome_rel (h g.1)
      rw [Fields.lookup_cons, if_pos rfl] at found
      exact nomatch found
  | cons f fs =>
    cases gs with
    | nil =>
      have found := isSome_rel (h f.1)
      rw [Fields.lookup_cons, if_pos rfl] at found
      exact nomatch found
    | cons g gs => rfl

theorem isUnconstrained_agree {s t : Schema} (h : s.Agree t) :
    s.isUnconstrained = t.isUnconstrained := by
  have m := h.unfold
  simp only [isUnconstrained, isNone_rel m.kinds, isNone_rel m.const,
    numberRules_isEmpty m.number, m.text, isEmpty_of_lookup m.properties, m.required,
    isNone_rel m.additional, isNone_rel m.items, isNone_rel m.anyOf, isNone_rel m.negated,
    m.reference]

end Schema

/-! ## Effective types -/

/-- Effective types that are the same but for the order of a list of kinds. -/
inductive Typing.Agree : Typing → Typing → Prop where
  | single (k : Kind) : Agree (.single k) (.single k)
  | listed {ks ls : List Kind} : ks.Perm ls → Agree (.listed ks) (.listed ls)
  | any : Agree .any .any
  | never : Agree .never .never

namespace Typing

theorem Agree.mem_admitted {a b : Typing} (h : a.Agree b) (k : Kind) :
    k ∈ a.admitted ↔ k ∈ b.admitted := by
  cases h with
  | single k => exact Iff.rfl
  | listed perm => exact (perm.flatMap_right covered).mem_iff
  | any => exact Iff.rfl
  | never => exact Iff.rfl

theorem Agree.kindSet_eq {a b : Typing} (h : a.Agree b) : a.kindSet = b.kindSet := by
  unfold kindSet
  refine List.filter_congr fun k _ => ?_
  rw [Bool.eq_iff_iff, List.contains_iff_mem, List.contains_iff_mem]
  exact h.mem_admitted k

end Typing

namespace Schema

def typingOf : List Kind → Typing
  | [k] => .single k
  | ks => .listed ks

theorem typing_of_kinds {s : Schema} {ks : List Kind} (h : s.kinds = some ks) :
    s.typing = typingOf ks := by
  obtain ⟨kinds, const, number, text, properties, required, additional, items, anyOf, negated,
    reference, identifier, definitions⟩ := s
  obtain rfl : kinds = some ks := h
  unfold typing typingOf
  rcases ks with _ | ⟨k, _ | ⟨l, ks⟩⟩ <;> rfl

def branchTyping (branches : List Schema) : Typing :=
  .listed (Kind.all.filter fun k => (branchKinds branches).contains k)

def otherTyping (s : Schema) : Typing :=
  if !s.properties.isEmpty then .single .object
  else
    match s.anyOf with
    | some branches => branchTyping branches
    | none =>
      match s.negated with
      | some u => if u.isUnconstrained then .never else .any
      | none => .any

theorem typing_of_no_kinds {s : Schema} (h : s.kinds = none) :
    s.typing =
      match s.const with
      | some value => .single value.kind
      | none => s.otherTyping := by
  obtain ⟨kinds, const, number, text, properties, required, additional, items, anyOf, negated,
    reference, identifier, definitions⟩ := s
  obtain rfl : kinds = none := h
  cases const <;> cases anyOf <;> cases negated <;> rfl

theorem mem_branchKinds {k : Kind} {ss : List Schema} :
    k ∈ branchKinds ss ↔ ∃ s ∈ ss, k ∈ s.typing.admitted := by
  induction ss with
  | nil => simp [branchKinds]
  | cons s ss ih => simp [branchKinds, ih]

theorem typingOf_agree {ks ls : List Kind} (h : ks.Perm ls) :
    (typingOf ks).Agree (typingOf ls) := by
  rcases ks with _ | ⟨k, _ | ⟨k', ks⟩⟩
  · rw [List.nil_perm.mp h]
    exact .listed .nil
  · rw [← List.singleton_perm.mp h]
    exact .single k
  · rcases ls with _ | ⟨l, _ | ⟨l', ls⟩⟩
    · exact absurd h.length_eq (by simp)
    · exact absurd h.length_eq (by simp)
    · exact .listed h

theorem branchTyping_eq {ss ts : List Schema}
    (h : ∀ k, k ∈ branchKinds ss ↔ k ∈ branchKinds ts) : branchTyping ss = branchTyping ts := by
  unfold branchTyping
  refine congrArg Typing.listed (List.filter_congr fun k _ => ?_)
  rw [Bool.eq_iff_iff, List.contains_iff_mem, List.contains_iff_mem]
  exact h k

theorem mem_branchKinds_perm {us ts : List Schema} (h : us.Perm ts) (k : Kind) :
    k ∈ branchKinds us ↔ k ∈ branchKinds ts := by
  rw [mem_branchKinds, mem_branchKinds]
  exact ⟨fun ⟨u, hu, hk⟩ => ⟨u, h.mem_iff.mp hu, hk⟩, fun ⟨u, hu, hk⟩ => ⟨u, h.mem_iff.mpr hu, hk⟩⟩

theorem mem_branchKinds_paired {ss us : List Schema} (paired : List.Forall₂ Agree ss us)
    (ih : ∀ s ∈ ss, ∀ {t : Schema}, s.Agree t → s.typing.Agree t.typing) (k : Kind) :
    k ∈ branchKinds ss ↔ k ∈ branchKinds us := by
  induction paired with
  | nil => exact Iff.rfl
  | cons first _ ih' =>
    have typed := (ih _ List.mem_cons_self first).mem_admitted k
    have others := ih' fun s hs => ih s (List.mem_cons_of_mem _ hs)
    rw [branchKinds, branchKinds, List.mem_append, List.mem_append, typed, others]

theorem otherTyping_agree {s t : Schema} (m : Matches Agree s t)
    (ih : ∀ u, Child u s → ∀ {v : Schema}, u.Agree v → u.typing.Agree v.typing) :
    s.otherTyping.Agree t.otherTyping := by
  unfold otherTyping
  rw [isEmpty_of_lookup m.properties]
  split
  · exact .single .object
  · rcases rel_cases m.anyOf with ⟨hs, ht⟩ | ⟨ss, ts, hs, ht, us, paired, arranged⟩
    · rw [hs, ht]
      rcases rel_cases m.negated with ⟨hs, ht⟩ | ⟨u, v, hs, ht, agreed⟩
      · rw [hs, ht]
        exact .any
      · rw [hs, ht]
        dsimp only
        rw [isUnconstrained_agree agreed]
        split
        · exact .never
        · exact .any
    · have kinds (k : Kind) : k ∈ branchKinds ss ↔ k ∈ branchKinds ts :=
        (mem_branchKinds_paired paired (fun u hu => ih u (.branch hs hu)) k).trans
          (mem_branchKinds_perm arranged k)
      rw [hs, ht]
      dsimp only
      rw [branchTyping_eq kinds]
      exact .listed (.refl _)

/-- Schemas that agree have effective types that agree. -/
theorem typing_agree {s t : Schema} (h : s.Agree t) : s.typing.Agree t.typing := by
  induction s using child_induction generalizing t with
  | step s ih =>
    have m := h.unfold
    rcases rel_cases m.kinds with ⟨hs, ht⟩ | ⟨ks, ls, hs, ht, perm⟩
    · rw [typing_of_no_kinds hs, typing_of_no_kinds ht]
      rcases rel_cases m.const with ⟨hs, ht⟩ | ⟨x, y, hs, ht, same⟩
      · rw [hs, ht]
        exact otherTyping_agree m fun u hu => ih u hu
      · rw [hs, ht]
        dsimp only
        rw [Json.kind_equal same.equal]
        exact .single _
    · rw [typing_of_kinds hs, typing_of_kinds ht]
      exact typingOf_agree perm

/-! ## Rewritten schemas -/

theorem project_agree {s t : Schema} (h : s.Agree t) (k : Kind) :
    (s.project k).Agree (t.project k) := by
  have m := h.unfold
  have kinds : Option.Rel List.Perm (some [k]) (some [k]) := .some (.refl _)
  refine .intro ?_
  cases k with
  | string => exact { matches_everything with kinds, text := m.text }
  | number => exact { matches_everything with kinds, number := m.number }
  | integer => exact { matches_everything with kinds, number := m.number }
  | object =>
    exact { matches_everything with
      kinds, properties := m.properties, required := m.required, additional := m.additional }
  | array => exact { matches_everything with kinds, items := m.items }
  | boolean => exact { matches_everything with kinds }
  | null => exact { matches_everything with kinds }

theorem split?_agree {s t : Schema} (h : s.Agree t) : Option.Rel Agree s.split? t.split? := by
  have m := h.unfold
  unfold split?
  rcases rel_cases m.anyOf with ⟨hs, ht⟩ | ⟨ss, ts, hs, ht, -⟩
  · rw [hs, ht]
    have typed := typing_agree h
    generalize s.typing = a at typed
    generalize t.typing = b at typed
    cases typed with
    | single k => exact .none
    | any => exact .none
    | never => exact .none
    | @listed ks ls perm =>
      have paired : List.Forall₂ Agree (ks.map s.project) (ks.map t.project) := by
        rw [List.forall₂_map_left_iff, List.forall₂_map_right_iff, List.forall₂_same]
        exact fun k _ => project_agree h k
      refine .some (.intro { matches_everything with anyOf := .some ⟨_, paired, ?_⟩ })
      exact perm.map t.project
  · rw [hs, ht]
    cases s.typing <;> cases t.typing <;> exact .none

/-- Schemas that agree do so after their lists of kinds are split up. -/
theorem split_agree {s t : Schema} (h : s.Agree t) : s.split.Agree t.split := by
  unfold split
  rcases rel_cases (split?_agree h) with ⟨hs, ht⟩ | ⟨u, v, hs, ht, agreed⟩
  · rw [hs, ht]
    exact h
  · rw [hs, ht]
    exact agreed

theorem lookup_constTable (fs : List (String × Json)) (name : String) :
    (constTable fs).lookup name = (fs.lookup name).map ofConst := by
  induction fs with
  | nil => rfl
  | cons f rest ih =>
    obtain ⟨key, x⟩ := f
    rw [constTable, Fields.lookup_cons, Fields.lookup_cons, ih]
    split <;> rfl

theorem mem_constTable {fs : List (String × Json)} {name : String} {u : Schema}
    (h : (name, u) ∈ constTable fs) : ∃ x, (name, x) ∈ fs ∧ u = ofConst x := by
  induction fs with
  | nil => exact nomatch h
  | cons f rest ih =>
    rw [constTable] at h
    rcases List.mem_cons.mp h with same | h
    · obtain ⟨rfl, rfl⟩ := Prod.mk.inj same
      exact ⟨f.2, List.mem_cons_self, rfl⟩
    · obtain ⟨x, hx, made⟩ := ih h
      exact ⟨x, List.mem_cons_of_mem f hx, made⟩

theorem keys_constTable (fs : List (String × Json)) :
    Fields.keys (constTable fs) = Fields.keys fs := by
  induction fs with
  | nil => rfl
  | cons f rest ih => exact congrArg (f.1 :: ·) ih

theorem ofConst_of_kind {x : Json} (h : x.kind ≠ .object) :
    ofConst x = { everything with const := some x } := by
  cases x <;> first | rfl | exact absurd rfl h

theorem obj_of_kind {x : Json} (h : x.kind = .object) : ∃ fs, x = .obj fs := by
  cases x <;> first | exact ⟨_, rfl⟩ | exact nomatch h

theorem ofConst_agree_of_kind {x y : Json} (h : x.Coincide y) (kind : x.kind ≠ .object) :
    (ofConst x).Agree (ofConst y) := by
  have kind' : y.kind ≠ .object := Json.kind_equal h.equal ▸ kind
  rw [ofConst_of_kind kind, ofConst_of_kind kind']
  exact .intro { matches_everything with const := .some h }

theorem lookup_constTable_agree {fs gs : List (String × Json)}
    (h : (Json.obj fs).Coincide (.obj gs))
    (ih : ∀ key x, (key, x) ∈ fs → ∀ {y : Json}, x.Coincide y → (ofConst x).Agree (ofConst y))
    (name : String) :
    Option.Rel Agree ((constTable fs).lookup name) ((constTable gs).lookup name) := by
  rw [lookup_constTable, lookup_constTable]
  rcases rel_cases (Json.lookup_equal h.equal name) with ⟨hf, hg⟩ | ⟨u, v, hf, hg, same⟩
  · rw [hf, hg]
    exact .none
  · rw [hf, hg]
    have left := Fields.mem_of_lookup hf
    have right := Fields.mem_of_lookup hg
    exact .some (ih name u left ⟨same, h.left.field left, h.right.field right⟩)

/-- The schemas of equal constants agree. -/
theorem ofConst_agree {x y : Json} (h : x.Coincide y) : (ofConst x).Agree (ofConst y) := by
  induction x using Json.parts_induction generalizing y with
  | null => exact ofConst_agree_of_kind h (by simp [Json.kind])
  | bool b => exact ofConst_agree_of_kind h (by simp [Json.kind])
  | num n => exact ofConst_agree_of_kind h (by simp [Json.kind])
  | str s => exact ofConst_agree_of_kind h (by simp [Json.kind])
  | arr xs => exact ofConst_agree_of_kind h (by simp [Json.kind])
  | obj fs ih =>
    obtain ⟨gs, rfl⟩ := obj_of_kind (Json.kind_equal h.equal).symm
    exact .intro { matches_everything with properties := lookup_constTable_agree h ih }

theorem unfoldConst_of_kind {s : Schema} (h : ∀ x, s.const = some x → x.kind ≠ .object) :
    s.unfoldConst = s := by
  unfold unfoldConst
  split
  · next fs hs => exact absurd rfl (h _ hs)
  · rfl

theorem unfoldConst_of_obj {s : Schema} {fs : List (String × Json)} (h : s.const = some (.obj fs)) :
    s.unfoldConst =
      { s with const := none, properties := Fields.putAll s.properties (constTable fs) } := by
  unfold unfoldConst
  rw [h]

theorem lookup_unfolded {s : Schema} {fs : List (String × Json)}
    (distinct : (Json.obj fs).Throughout Json.DistinctKeys) (name : String) :
    (Fields.putAll s.properties (constTable fs)).lookup name =
      ((constTable fs).lookup name).or (s.properties.lookup name) :=
  Fields.lookup_putAll (by rw [keys_constTable]; exact distinct.here) _ name

/-- Schemas that agree do so after their constants have become properties. -/
theorem unfoldConst_agree {s t : Schema} (h : s.Agree t) :
    s.unfoldConst.Agree t.unfoldConst := by
  have m := h.unfold
  rcases rel_cases m.const with ⟨hs, ht⟩ | ⟨x, y, hs, ht, same⟩
  · rw [unfoldConst_of_kind (by simp [hs]), unfoldConst_of_kind (by simp [ht])]
    exact h
  · have kinds := Json.kind_equal same.equal
    by_cases object : x.kind = .object
    · obtain ⟨fs, rfl⟩ := obj_of_kind object
      obtain ⟨gs, rfl⟩ := obj_of_kind (kinds.symm.trans object)
      rw [unfoldConst_of_obj hs, unfoldConst_of_obj ht]
      refine .intro { m with const := .none, properties := fun name => ?_ }
      show Option.Rel Agree ((Fields.putAll s.properties (constTable fs)).lookup name)
        ((Fields.putAll t.properties (constTable gs)).lookup name)
      rw [lookup_unfolded same.left, lookup_unfolded same.right]
      exact rel_or (lookup_constTable_agree same (fun _ _ _ => ofConst_agree) name)
        (m.properties name)
    · rw [unfoldConst_of_kind (by simp [hs, object]),
        unfoldConst_of_kind (by simp [ht, ← kinds, object])]
      exact h

end Schema

/-! ## References -/

/-- The references of two roots agree: every spelling leads to schemas that agree, and chains may
be equally long. -/
structure References.Agree (old new : References) : Prop where
  size : old.table.length = new.table.length
  find? : ∀ r, Option.Rel Schema.Agree (old.find? r) (new.find? r)

namespace References

/-- There is nothing to refer to in either of two empty tables. -/
theorem agree_empty : (References.mk []).Agree ⟨[]⟩ := ⟨rfl, fun _ => .none⟩

/-- There is nothing to follow from a schema without a reference. -/
theorem follow_of_no_reference (refs : References) {s : Schema} (h : s.reference = none) :
    (refs.follow s).schema = s := by
  unfold follow followFrom
  rw [h]

/-- Where a relation keeps references and what they lead to, it is kept by following them. -/
theorem followFrom_related {R : Schema → Schema → Prop} {old new : References}
    (same : ∀ s t, R s t → s.reference = t.reference)
    (find : ∀ r, Option.Rel R (old.find? r) (new.find? r)) (fuel : Nat) (trail : List String)
    {s t : Schema} (hst : R s t) :
    R (old.followFrom fuel trail s).schema (new.followFrom fuel trail t).schema := by
  induction fuel generalizing trail s t with
  | zero => exact hst
  | succ fuel ih =>
    unfold followFrom
    rw [← same s t hst]
    rcases s.reference with _ | r
    · exact hst
    · dsimp only
      split
      · exact hst
      · rcases rel_cases (find r) with ⟨hs, ht⟩ | ⟨u, v, hs, ht, related⟩
        · rw [hs, ht]
          exact hst
        · rw [hs, ht]
          exact ih (r :: trail) related

/-- Schemas that agree do so after their references are followed. -/
theorem follow_agree {old new : References} (h : old.Agree new) {s t : Schema}
    (hst : s.Agree t) : (old.follow s).schema.Agree (new.follow t).schema := by
  unfold follow
  rw [← h.size]
  exact followFrom_related (fun _ _ agreed => agreed.unfold.reference) h.find? _ [] hst

/-- Definitions that are related have related entries. -/
theorem entered_related {R : Schema → Schema → Prop} (root : Option String)
    {fs gs : List (String × Schema)}
    (h : Fields.Aligned (fun _ s t => s.identifier = t.identifier ∧ R s t) fs gs) :
    Fields.Aligned (fun _ => R) (entered root fs) (entered root gs) := by
  induction h with
  | nil => exact .nil
  | @cons f g fs gs first _ ih =>
    obtain ⟨name, s⟩ := f
    obtain ⟨name', t⟩ := g
    obtain ⟨rfl, identifier, related⟩ : name = name' ∧ s.identifier = t.identifier ∧ R s t := first
    have same : spellings root name s = spellings root name t := by
      unfold spellings
      rw [identifier]
    have entries : Fields.Aligned (fun _ => R) ((spellings root name s).map fun r => (r, s))
        ((spellings root name t).map fun r => (r, t)) := by
      rw [same, Fields.Aligned, List.forall₂_map_left_iff, List.forall₂_map_right_iff,
        List.forall₂_same]
      exact fun r _ => ⟨rfl, related⟩
    exact List.rel_append entries ih

/-- The references of two roots lead to related schemas if the definitions are related. -/
theorem ofRoot_related {R : Schema → Schema → Prop} {s t : Schema}
    (identifier : s.identifier = t.identifier)
    (h : Fields.Aligned (fun _ s t => s.identifier = t.identifier ∧ R s t)
      s.definitions t.definitions) :
    (ofRoot s).table.length = (ofRoot t).table.length ∧
      ∀ r, Option.Rel R ((ofRoot s).find? r) ((ofRoot t).find? r) := by
  have entered := entered_related s.identifier h
  have tables : Fields.Aligned (fun _ => R) (ofRoot s).table (ofRoot t).table := by
    unfold ofRoot
    rw [← identifier]
    exact List.forall₂_reverse_iff.mpr entered
  exact ⟨tables.length_eq, fun r => tables.lookup r⟩

end References

end SchemaDrift
