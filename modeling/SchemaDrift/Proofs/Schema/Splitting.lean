import SchemaDrift.Proofs.Acceptance
import SchemaDrift.Schema.Reading

/-!
# Splitting up a list of kinds

A schema with a list of kinds and without branches is split up into branches of one kind each, of
which each keeps the block of rules for its kind. A list of one name counts as that one kind and is
left alone; the empty list is split up into no branches at all.

* `Schema.split?_eq_some_iff` says which schemas are split up, and into what.
* `Schema.split?_split`: what was split up is not split up again.
* `Schema.kindSet_split`: splitting up a list of kinds keeps the kinds.
* `Schema.Grants` says which values a schema accepts whose rules are kinds and blocks of rules, or
  branches of this sort. What the blocks mean is left open.
* `Schema.split_keeps_meaning` is the main statement: the branches accept what the list of kinds
  accepted.
-/

namespace SchemaDrift

/-! ## Kinds of branches -/

namespace Typing

theorem covered_trans {i j k : Kind} (h : i ∈ covered j) (hj : j ∈ covered k) :
    i ∈ covered k := by
  cases k <;> cases j <;> first | exact h | (cases i <;> simp_all [covered])

/-- An effective type admits what the kinds that it admits cover. -/
theorem admitted_of_covered {t : Typing} {j k : Kind} (hj : j ∈ t.admitted) (hk : k ∈ covered j) :
    k ∈ t.admitted := by
  cases t with
  | single i => exact covered_trans hk hj
  | listed is =>
    obtain ⟨i, hi, hj⟩ := List.mem_flatMap.mp hj
    exact List.mem_flatMap.mpr ⟨i, hi, covered_trans hk hj⟩
  | any => exact Kind.mem_all k
  | never => exact nomatch hj

end Typing

namespace Schema

theorem typing_project (s : Schema) (k : Kind) : (s.project k).typing = .single k := by
  cases k <;> rfl

/-- Branches admit what one of them admits. -/
theorem mem_branchTyping {k : Kind} {ss : List Schema} :
    k ∈ (branchTyping ss).admitted ↔ ∃ s ∈ ss, k ∈ s.typing.admitted := by
  rw [← mem_branchKinds]
  show k ∈ List.flatMap _ _ ↔ _
  simp only [List.mem_flatMap, List.mem_filter, List.contains_iff_mem, Kind.mem_all, true_and]
  constructor
  · rintro ⟨j, hj, hk⟩
    rw [mem_branchKinds] at hj ⊢
    obtain ⟨s, hs, hj⟩ := hj
    exact ⟨s, hs, Typing.admitted_of_covered hj hk⟩
  · exact fun hk => ⟨k, hk, Typing.mem_covered k⟩

/-! ## What is split up -/

/-- The schema that accepts what one of the branches accepts. -/
def choice (branches : List Schema) : Schema := { everything with anyOf := some branches }

/-- A schema of one kind is not split up. -/
theorem split?_of_kind {s : Schema} {k : Kind} (kinds : s.kinds = some [k]) : s.split? = none := by
  unfold split?
  rw [typing_of_kinds kinds]
  rfl

/-- A schema with branches of its own is not split up. -/
theorem split?_choice (branches : List Schema) : (choice branches).split? = none := by
  unfold split?
  cases (choice branches).typing <;> rfl

theorem split_eq_self {s : Schema} (whole : s.split? = none) : s.split = s := by
  rw [split, whole]
  rfl

theorem split_eq_of_some {s t : Schema} (parted : s.split? = some t) : s.split = t := by
  rw [split, parted]
  rfl

theorem typingOf_eq_listed_iff {ks ls : List Kind} :
    typingOf ls = .listed ks ↔ ls = ks ∧ ls.length ≠ 1 := by
  rcases ls with _ | ⟨i, _ | ⟨j, ls⟩⟩
  · exact ⟨fun h => ⟨Typing.listed.inj h, by decide⟩, fun h => congrArg Typing.listed h.1⟩
  · exact ⟨fun h => (nomatch h), fun h => absurd rfl h.2⟩
  · exact ⟨fun h => ⟨Typing.listed.inj h, by simp⟩, fun h => congrArg Typing.listed h.1⟩

/-- Neither properties nor a negation nor the lack of both make a list of kinds. -/
theorem otherTyping_ne_listed {s : Schema} (unbranched : s.anyOf = none) (ks : List Kind) :
    s.otherTyping ≠ .listed ks := by
  unfold otherTyping
  rw [unbranched]
  dsimp only
  split
  · exact nofun
  · split
    · split <;> exact nofun
    · exact nofun

/-- Only a list of kinds gives a schema without branches an effective type that is a list. -/
theorem typing_eq_listed_iff {s : Schema} {ks : List Kind} (unbranched : s.anyOf = none) :
    s.typing = .listed ks ↔ s.kinds = some ks ∧ ks.length ≠ 1 := by
  rcases kinds : s.kinds with _ | ls
  · rw [typing_of_no_kinds kinds]
    refine ⟨fun listed => ?_, fun h => nomatch h.1⟩
    rcases const : s.const with _ | c
    · rw [const] at listed
      exact absurd listed (otherTyping_ne_listed unbranched ks)
    · rw [const] at listed
      cases listed
  · rw [typing_of_kinds kinds, typingOf_eq_listed_iff, Option.some.injEq]
    exact and_congr_right fun same => by rw [same]

/-- A schema is split up if it lists kinds, not just one, and has no branches. It makes one branch
of every kind in the list. -/
theorem split?_eq_some_iff {s t : Schema} :
    s.split? = some t ↔ ∃ ks, s.kinds = some ks ∧ ks.length ≠ 1 ∧ s.anyOf = none ∧
      t = choice (ks.map s.project) := by
  constructor
  · intro parted
    unfold split? at parted
    split at parted
    · next ks listed unbranched =>
      obtain ⟨kinds, several⟩ := (typing_eq_listed_iff unbranched).mp listed
      exact ⟨ks, kinds, several, unbranched, (Option.some.inj parted).symm⟩
    · cases parted
  · rintro ⟨ks, kinds, several, unbranched, rfl⟩
    unfold split?
    rw [(typing_eq_listed_iff unbranched).mpr ⟨kinds, several⟩, unbranched]
    rfl

/-- What was split up is not split up again. -/
theorem split?_split (s : Schema) : s.split.split? = none := by
  rcases parted : s.split? with _ | t
  · rw [split_eq_self parted, parted]
  · obtain ⟨ks, -, -, -, rfl⟩ := split?_eq_some_iff.mp parted
    rw [split_eq_of_some parted, split?_choice]

/-- Splitting up a list of kinds keeps the kinds. -/
theorem kindSet_split (s : Schema) : s.split.typing.kindSet = s.typing.kindSet := by
  unfold split split?
  split
  · next ks listed _ =>
    rw [listed]
    refine List.filter_congr fun k _ => ?_
    rw [Bool.eq_iff_iff, List.contains_iff_mem, List.contains_iff_mem]
    show k ∈ (branchTyping (ks.map s.project)).admitted ↔ _
    rw [mem_branchTyping]
    constructor
    · rintro ⟨u, hu, hk⟩
      obtain ⟨j, hj, rfl⟩ := List.mem_map.mp hu
      rw [typing_project] at hk
      exact List.mem_flatMap.mpr ⟨j, hj, hk⟩
    · intro hk
      obtain ⟨j, hj, hk⟩ := List.mem_flatMap.mp hk
      refine ⟨s.project j, List.mem_map_of_mem hj, ?_⟩
      rw [typing_project]
      exact hk
  · rfl

end Schema

/-! ## What kinds and blocks of rules accept -/

/-- What the blocks of rules say of the values that they are about. -/
structure BlockMeaning where
  number : NumberRules → Number → Prop
  text : StringRules → String → Prop
  object : List (String × Schema) → List String → Option Schema → List (String × Json) → Prop
  array : Option (Items Schema) → List Json → Prop

namespace Schema

variable {meaning : BlockMeaning} {s : Schema} {v : Json}

/-- The block of rules for the kind of a value is content with it. There are no rules on booleans
and `null`. -/
def BlockAllows (meaning : BlockMeaning) (s : Schema) : Json → Prop
  | .num n => meaning.number s.number n
  | .str text => meaning.text s.text text
  | .obj fs => meaning.object s.properties s.required s.additional fs
  | .arr xs => meaning.array s.items xs
  | .bool _ => True
  | .null => True

/-- A schema whose rules are kinds and blocks of rules. -/
structure OfBlocks (s : Schema) : Prop where
  const : s.const = none
  anyOf : s.anyOf = none
  negated : s.negated = none
  reference : s.reference = none

/-- Which values a schema accepts.

* `rules`: a value of one of the kinds, if there is a list of them, with which the block of rules
  for its own kind is content.
* `branch`: a value that one of the branches accepts. -/
inductive Grants (meaning : BlockMeaning) : Schema → Json → Prop where
  | rules {s : Schema} {v : Json} (made : s.OfBlocks)
      (kind : ∀ ks, s.kinds = some ks → ∃ k ∈ ks, v.hasKind k = true)
      (block : s.BlockAllows meaning v) : Grants meaning s v
  | branch {ss : List Schema} {s : Schema} {v : Json} (hs : s ∈ ss)
      (granted : Grants meaning s v) : Grants meaning (choice ss) v

theorem grants_iff_of_blocks (made : s.OfBlocks) :
    s.Grants meaning v ↔
      (∀ ks, s.kinds = some ks → ∃ k ∈ ks, v.hasKind k = true) ∧ s.BlockAllows meaning v := by
  constructor
  · intro granted
    cases granted with
    | rules _ kind block => exact ⟨kind, block⟩
    | branch => exact nomatch made.anyOf
  · exact fun ⟨kind, block⟩ => .rules made kind block

theorem grants_choice_iff {ss : List Schema} :
    (choice ss).Grants meaning v ↔ ∃ s ∈ ss, s.Grants meaning v := by
  constructor
  · intro granted
    cases granted with
    | rules made => exact nomatch made.anyOf
    | branch hs granted => exact ⟨_, hs, granted⟩
  · exact fun ⟨s, hs, granted⟩ => .branch hs granted

theorem kinds_project (s : Schema) (k : Kind) : (s.project k).kinds = some [k] := by
  cases k <;> rfl

theorem project_ofBlocks (s : Schema) (k : Kind) : (s.project k).OfBlocks := by
  cases k <;> exact ⟨rfl, rfl, rfl, rfl⟩

/-- What a schema keeps for a kind is all that concerns the values of this kind. For an `integer`
these are the rules on numbers. -/
theorem blockAllows_project {k : Kind} (has : v.hasKind k = true) :
    (s.project k).BlockAllows meaning v ↔ s.BlockAllows meaning v := by
  cases k <;> cases v <;> first | exact Iff.rfl | exact nomatch has

/-- The branch for a kind accepts the values of this kind with which the rules are content. -/
theorem grants_project_iff {k : Kind} :
    (s.project k).Grants meaning v ↔ v.hasKind k = true ∧ s.BlockAllows meaning v := by
  rw [grants_iff_of_blocks (project_ofBlocks s k), kinds_project]
  constructor
  · rintro ⟨kind, block⟩
    obtain ⟨j, hj, has⟩ := kind [k] rfl
    obtain rfl := List.mem_singleton.mp hj
    exact ⟨has, (blockAllows_project has).mp block⟩
  · rintro ⟨has, block⟩
    refine ⟨fun ks hks => ?_, (blockAllows_project has).mpr block⟩
    obtain rfl := Option.some.inj hks
    exact ⟨k, List.mem_singleton_self k, has⟩

/-- The branches of a list of kinds accept what the list accepts. A whole number may be accepted by
two of them. -/
theorem grants_branches_iff {ks : List Kind} (made : s.OfBlocks) (kinds : s.kinds = some ks) :
    (choice (ks.map s.project)).Grants meaning v ↔ s.Grants meaning v := by
  rw [grants_choice_iff, grants_iff_of_blocks made]
  constructor
  · rintro ⟨u, hu, granted⟩
    obtain ⟨k, hk, rfl⟩ := List.mem_map.mp hu
    obtain ⟨has, block⟩ := grants_project_iff.mp granted
    refine ⟨fun ls hls => ?_, block⟩
    obtain rfl := Option.some.inj (kinds.symm.trans hls)
    exact ⟨k, hk, has⟩
  · rintro ⟨kind, block⟩
    obtain ⟨k, hk, has⟩ := kind ks kinds
    exact ⟨s.project k, List.mem_map_of_mem hk, grants_project_iff.mpr ⟨has, block⟩⟩

/-- Splitting up a schema keeps its meaning: of a schema whose rules are a list of kinds, not just
one, and blocks of rules, it makes branches that accept the same values, whatever the blocks mean.
Of any schema it keeps the kinds, and doing it twice is doing it once. -/
theorem split_keeps_meaning (s : Schema) :
    (∀ ks, s.OfBlocks → s.kinds = some ks → ks.length ≠ 1 →
      ∃ branches, s.split? = some (choice branches) ∧
        ∀ meaning v, s.split.Grants meaning v ↔ s.Grants meaning v) ∧
      s.split.typing.kindSet = s.typing.kindSet ∧
      s.split.split? = none ∧ s.split.split = s.split := by
  refine ⟨fun ks made kinds several => ?_, kindSet_split s, split?_split s,
    split_eq_self (split?_split s)⟩
  have parted : s.split? = some (choice (ks.map s.project)) :=
    split?_eq_some_iff.mpr ⟨ks, kinds, several, made.anyOf, rfl⟩
  refine ⟨ks.map s.project, parted, fun meaning v => ?_⟩
  rw [split_eq_of_some parted]
  exact grants_branches_iff made kinds

/-- Numbers have to keep to their bounds, texts to their lengths, and objects have to have the
required names. -/
def boundedMeaning : BlockMeaning where
  number rules n := ∀ b x, Task.boundValue rules b = some x → n.related b.demand (.double x) = true
  text rules text := (∀ n, rules.minLength = some n → n ≤ text.length) ∧
    ∀ n, rules.maxLength = some n → text.length ≤ n
  object _ required _ fs := ∀ name ∈ required, (fs.lookup name).isSome = true
  array _ _ := True

/-- Numbers from two upwards and objects with an `id`; one name stands twice, and whole numbers are
covered twice. -/
def mixedSchema : Schema :=
  { everything with
    kinds := some [.integer, .object, .number, .integer]
    number := { NumberRules.none with minimum := some (.ofInt 2) }
    required := ["id"] }

/-- The list of kinds becomes four branches, which accept the numbers from two upwards and refuse
those below. -/
theorem split_keeps_meaning_mixed :
    Schema.ofDocument (.obj [("type", .arr [.str "integer", .str "object", .str "number",
        .str "integer"]), ("minimum", .num (.int 2)), ("required", .arr [.str "id"])]) =
      .ok mixedSchema ∧
    mixedSchema.OfBlocks ∧ mixedSchema.kinds = some [.integer, .object, .number, .integer] ∧
    [Kind.integer, .object, .number, .integer].length ≠ 1 ∧
    (∃ branches, mixedSchema.split? = some (choice branches)) ∧
    mixedSchema.Grants boundedMeaning (.num (.int 3)) ∧
    mixedSchema.split.Grants boundedMeaning (.num (.int 3)) ∧
    ¬mixedSchema.Grants boundedMeaning (.num (.int 1)) ∧
    ¬mixedSchema.split.Grants boundedMeaning (.num (.int 1)) ∧
    mixedSchema.split.typing.kindSet = [.number, .integer, .object] := by
  have made : mixedSchema.OfBlocks := ⟨rfl, rfl, rfl, rfl⟩
  have several : [Kind.integer, .object, .number, .integer].length ≠ 1 := by decide
  obtain ⟨meant, kept, -, -⟩ := split_keeps_meaning mixedSchema
  obtain ⟨branches, parted, same⟩ := meant _ made rfl several
  have granted : mixedSchema.Grants boundedMeaning (.num (.int 3)) := by
    refine .rules made (fun ks hks => ⟨.integer, ?_, rfl⟩) fun b x hx => ?_
    · rw [← Option.some.inj hks]
      exact List.mem_cons_self
    · cases b with
      | minimum =>
        rw [← Option.some.inj hx]
        decide +kernel
      | _ => exact nomatch hx
  have refused : ¬mixedSchema.Grants boundedMeaning (.num (.int 1)) := by
    rw [grants_iff_of_blocks made]
    rintro ⟨-, block⟩
    have enough := block .minimum (.ofInt 2) rfl
    exact absurd enough (by decide +kernel)
  refine ⟨rfl, made, rfl, several, ⟨branches, parted⟩, granted, (same _ _).mpr granted, refused,
    fun still => refused ((same _ _).mp still), kept.trans (by decide)⟩

end Schema

end SchemaDrift
