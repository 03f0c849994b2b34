import SchemaDrift.Proofs.Completeness
import SchemaDrift.Proofs.Schema.Stated

/-!
# What goes unreported

A comparison looks at bounds after they are rounded. So it reports nothing exactly if the two
documents have the same content with their bounds rounded, and documents that differ in a bound by
less than the doubles can tell are taken for equal.

* `Json.Concur` says that two documents have the same content when their bounds are compared as
  some measure has them, `Json.SameContent` what it asks of a pair.
* `Json.Concur.rounded` and `Json.Concur.exact`: rounding makes no difference out of none, and hides
  none if doubles hold all bounds.
* `Schema.concur_iff_of_renders`: documents have the same content with their bounds rounded just if
  their schemas have the same content.
* `Comparison.unreported_exact` is the main statement.
-/

namespace SchemaDrift

open Schema

/-! ## Documents with the same content -/

namespace Json

/-- What it takes for two documents to have the same content if `R` says which of their subschemas
do. Bounds are compared after they are measured. A rule on items says nothing if the other side has
none. -/
structure SameContent (measure : Number → Number) (R : Json → Json → Prop) (d e : Json) : Prop where
  kinds : ∀ k, d.MayBe k ↔ e.MayBe k
  bound : ∀ b : Bound, Option.Rel (fun m n => (measure m).same (measure n) = true)
    (d.number? b.keyword) (e.number? b.keyword)
  format : d.text? "format" = e.text? "format"
  pattern : d.text? "pattern" = e.text? "pattern"
  minLength : Option.Rel (fun m n => m.same n = true) (d.number? "minLength")
    (e.number? "minLength")
  maxLength : Option.Rel (fun m n => m.same n = true) (d.number? "maxLength")
    (e.number? "maxLength")
  required : ∀ name, d.Requires name ↔ e.Requires name
  properties : ∀ name, Option.Rel R (d.property? name) (e.property? name)
  items : ∀ a b, d.items? = some a → e.items? = some b → ItemsMatch R a b

/-- Two documents have the same content: some relation holds between them that asks as much of
subschemas. -/
def Concur (measure : Number → Number) (d e : Json) : Prop :=
  ∃ R, (∀ x y, R x y → SameContent measure R x y) ∧ R d e

variable {f g : Number → Number} {d e : Json}

theorem SameContent.mono {R S : Json → Json → Prop} (h : ∀ x y, R x y → S x y)
    (m : SameContent f R d e) : SameContent f S d e :=
  { m with
    properties := fun name => optionRel_mono (fun x y _ => h x y) (m.properties name)
    items := fun a b ha hb => (m.items a b ha hb).mono h }

theorem concur_iff : Concur f d e ↔ SameContent f (Concur f) d e := by
  have unfold {d e : Json} (h : Concur f d e) : SameContent f (Concur f) d e := by
    obtain ⟨R, closed, hde⟩ := h
    exact (closed d e hde).mono fun x y hxy => ⟨R, closed, hxy⟩
  exact ⟨unfold, fun h => ⟨SameContent f (Concur f), fun _ _ hxy => hxy.mono fun _ _ => unfold, h⟩⟩

/-- Bounds of one value are rounded to bounds of one value. -/
theorem Concur.rounded (h : Concur id d e) : Concur Number.rounded d e := by
  obtain ⟨R, closed, hde⟩ := h
  refine ⟨R, fun x y hxy => { closed x y hxy with bound := fun b => ?_ }, hde⟩
  exact optionRel_mono (fun _ _ _ => Number.same_rounded) ((closed x y hxy).bound b)

/-- Bounds that doubles hold are told apart. -/
theorem Concur.exact (h : Concur Number.rounded d e) (old : d.Unrounded) (new : e.Unrounded) :
    Concur id d e := by
  refine ⟨fun x y => Concur Number.rounded x y ∧ x.Unrounded ∧ y.Unrounded, ?_, h, old, new⟩
  rintro x y ⟨hxy, hx, hy⟩
  have content := concur_iff.mp hxy
  refine { content with bound := fun b => ?_, properties := fun name => ?_, items := ?_ }
  · obtain ⟨present, same⟩ := optionRel_iff.mp (content.bound b)
    refine optionRel_iff.mpr ⟨present, fun m n hm hn => ?_⟩
    have right := hy.bound hn
    rw [Number.same_comm] at right
    exact Number.same_trans (Number.same_trans (hx.bound hm) (same m n hm hn)) right
  · obtain ⟨present, concur⟩ := optionRel_iff.mp (content.properties name)
    exact optionRel_iff.mpr ⟨present, fun u w hu hw =>
      ⟨concur u w hu hw, hx.property hu, hy.property hw⟩⟩
  · intro a b ha hb
    cases content.items a b ha hb with
    | every concur => exact .every ⟨concur, hx.every ha, hy.every hb⟩
    | positions concur =>
      obtain ⟨sized, paired⟩ := List.forall₂_iff_zip.mp concur
      refine .positions (List.forall₂_iff_zip.mpr ⟨sized, fun {u w} among => ?_⟩)
      obtain ⟨left, right⟩ := List.of_mem_zip among
      exact ⟨paired among, hx.position ha left, hy.position hb right⟩

end Json

/-! ## The schemas of such documents -/

namespace Schema

variable {d e : Json} {s t : Schema}

theorem rel_map_iff {α β : Type} {R : β → β → Prop} {f : α → β} {x y : Option α} :
    Option.Rel R (x.map f) (y.map f) ↔ Option.Rel (fun a b => R (f a) (f b)) x y := by
  cases x <;> cases y <;> simp [optionRel_iff]

theorem lengths_same_iff {x y : Option Number} {m n : Option Nat}
    (hx : Option.Rel (fun a (k : Nat) => a.same (.int k) = true) x m)
    (hy : Option.Rel (fun a (k : Nat) => a.same (.int k) = true) y n) :
    Option.Rel (fun a b => a.same b = true) x y ↔ m = n := by
  have equal : Option.Rel (fun k l : Nat => k = l) m n ↔ m = n := by
    rw [optionRel_iff]
    cases m <;> cases n <;> simp
  rw [← equal]
  refine optionRel_congr (fun a k b l _ hk hl => ?_) hx hy
  constructor
  · intro same
    rw [Number.same_comm] at hk
    exact Int.ofNat.inj (Number.same_int.mp (Number.same_trans (Number.same_trans hk same) hl))
  · rintro rfl
    rw [Number.same_comm] at hl
    exact Number.same_trans hk hl

theorem itemsMatch_congr {R : Json → Json → Prop} {S : Schema → Schema → Prop}
    (h : ∀ x u y w, ReadTo x u → ReadTo y w → (R x y ↔ S u w)) {a b : Items Json}
    {i j : Items Schema} (ha : ItemsMatch ReadTo a i) (hb : ItemsMatch ReadTo b j) :
    ItemsMatch R a b ↔ ItemsMatch S i j := by
  cases ha with
  | every hx =>
    cases hb with
    | every hy =>
      have same := h _ _ _ _ hx hy
      exact ⟨fun | .every r => .every (same.mp r), fun | .every r => .every (same.mpr r)⟩
    | positions => exact ⟨nofun, nofun⟩
  | positions hx =>
    cases hb with
    | every => exact ⟨nofun, nofun⟩
    | positions hy =>
      have same := forall₂_congr (P := R) (Q := S)
        (fun x u y w _ hu hw => h x u y w hu hw) hx hy
      exact ⟨fun | .positions r => .positions (same.mp r),
        fun | .positions r => .positions (same.mpr r)⟩

/-- Two documents have the same content, with their bounds rounded and up to a relation, just if
their schemas have it up to a relation that comes to the same. -/
theorem sameContent_iff {R : Json → Json → Prop} {S : Schema → Schema → Prop}
    (h : ∀ x u y w, ReadTo x u → ReadTo y w → (R x y ↔ S u w)) (hs : Renders d s)
    (ht : Renders e t) : Json.SameContent Number.rounded R d e ↔ SameContent S s t := by
  have kinds : (∀ k, d.MayBe k ↔ e.MayBe k) ↔ ∀ k, k ∈ s.typing.admitted ↔ k ∈ t.typing.admitted :=
    forall_congr' fun k => by rw [hs.typing, ht.typing]
  have number : (∀ b : Bound, Option.Rel (fun m n => m.rounded.same n.rounded = true)
      (d.number? b.keyword) (e.number? b.keyword)) ↔ s.number.alike t.number = true := by
    rw [NumberRules.alike_iff]
    refine forall_congr' fun b => ?_
    rw [hs.bound, ht.bound, rel_map_iff]
    rfl
  have shortest := lengths_same_iff hs.minLength ht.minLength
  have longest := lengths_same_iff hs.maxLength ht.maxLength
  have required : (∀ name, d.Requires name ↔ e.Requires name) ↔
      ∀ name, name ∈ s.required ↔ name ∈ t.required :=
    forall_congr' fun name => by rw [hs.required, ht.required]
  have properties : (∀ name, Option.Rel R (d.property? name) (e.property? name)) ↔
      ∀ name, Option.Rel S (s.properties.lookup name) (t.properties.lookup name) :=
    forall_congr' fun name =>
      optionRel_congr (fun x u y w _ => h x u y w) (hs.properties name) (ht.properties name)
  have items : (∀ a b, d.items? = some a → e.items? = some b → ItemsMatch R a b) ↔
      ∀ i j, s.items = some i → t.items = some j → ItemsMatch S i j := by
    rcases rel_cases hs.items with ⟨hd, hs⟩ | ⟨a, i, hd, hs, left⟩
    · rw [hd, hs]
      exact ⟨nofun, nofun⟩
    rcases rel_cases ht.items with ⟨he, ht⟩ | ⟨b, j, he, ht, right⟩
    · rw [he, ht]
      exact ⟨nofun, nofun⟩
    have same := itemsMatch_congr h left right
    rw [hd, hs, he, ht]
    constructor
    · rintro matched _ _ ⟨⟩ ⟨⟩
      exact same.mp (matched a b rfl rfl)
    · rintro matched _ _ ⟨⟩ ⟨⟩
      exact same.mpr (matched i j rfl rfl)
  constructor
  · intro m
    have text : s.text = t.text := by
      have format := hs.format.symm.trans (m.format.trans ht.format)
      have pattern := hs.pattern.symm.trans (m.pattern.trans ht.pattern)
      have shortest := shortest.mp m.minLength
      have longest := longest.mp m.maxLength
      generalize s.text = p at format pattern shortest longest
      generalize t.text = q at format pattern shortest longest
      cases p
      cases q
      rw [StringRules.mk.injEq]
      exact ⟨format, pattern, shortest, longest⟩
    exact ⟨kinds.mp m.kinds, number.mp m.bound, text, required.mp m.required,
      properties.mp m.properties, items.mp m.items⟩
  · intro m
    exact {
      kinds := kinds.mpr m.kinds
      bound := number.mpr m.number
      format := by rw [hs.format, ht.format, m.text]
      pattern := by rw [hs.pattern, ht.pattern, m.text]
      minLength := shortest.mpr (by rw [m.text])
      maxLength := longest.mpr (by rw [m.text])
      required := required.mpr m.required
      properties := properties.mpr m.properties
      items := items.mpr m.items }

theorem concur_iff_of_read {x y : Json} {u w : Schema} (hu : ReadTo x u) (hw : ReadTo y w) :
    Json.Concur Number.rounded x y ↔ u.Concur w := by
  constructor
  · rintro ⟨Q, closed, hxy⟩
    let S (u w : Schema) : Prop := ∃ x y, ReadTo x u ∧ ReadTo y w ∧ Q x y
    refine ⟨S, ?_, x, y, hu, hw, hxy⟩
    rintro u w ⟨x, y, hu, hw, hxy⟩
    -- What is read to one schema is in the same relations, so that the schemas decide.
    refine (sameContent_iff (R := fun x y => ∀ u w, ReadTo x u → ReadTo y w → S u w) ?_
      (renders_of_read (hu .root)) (renders_of_read (hw .root))).mp
      ((closed x y hxy).mono fun x y hxy u w hu hw => ⟨x, y, hu, hw, hxy⟩)
    intro x u y w hu hw
    constructor
    · exact fun h => h u w hu hw
    · intro h u' w' hu' hw'
      rwa [hu'.unique hu, hw'.unique hw]
  · intro h
    refine ⟨fun x y => ∃ u w, ReadTo x u ∧ ReadTo y w ∧ u.Concur w, ?_, u, w, hu, hw, h⟩
    rintro x y ⟨u, w, hu, hw, h⟩
    refine (sameContent_iff (S := Concur) ?_ (renders_of_read (hu .root))
      (renders_of_read (hw .root))).mpr (concur_iff.mp h)
    intro x u y w hu hw
    constructor
    · rintro ⟨u', w', hu', hw', h⟩
      rwa [hu.unique hu', hw.unique hw']
    · exact fun h => ⟨u, w, hu, hw, h⟩

/-- Documents have the same content with their bounds rounded just if their schemas have the same
content. -/
theorem concur_iff_of_renders (hs : Renders d s) (ht : Renders e t) :
    Json.Concur Number.rounded d e ↔ s.Concur t := by
  rw [Json.concur_iff, concur_iff]
  exact sameContent_iff (fun _ _ _ _ => concur_iff_of_read) hs ht

end Schema

/-! ## Comparisons -/

namespace Comparison

/-- A comparison of two bare documents that comes to its end reports nothing exactly if the two have
the same content with their bounds rounded. If they have the same content as written it does report
nothing, and the converse holds if doubles hold all bounds. -/
theorem unreported_exact (limit : DepthLimit) {capacity : Int} (room : 1 ≤ capacity)
    {old new : Json} {s t : Schema} (builtOld : Schema.ofDocument old = .ok s)
    (builtNew : Schema.ofDocument new = .ok t) (hs : s.Throughout Bare) (ht : t.Throughout Bare)
    {changes : List Change} (ended : (ofDocuments limit capacity old new).changes = .ok changes) :
    (changes = [] ↔ Json.Concur Number.rounded old new) ∧
      (Json.Concur id old new → changes = []) ∧
      (old.Unrounded → new.Unrounded → (changes = [] ↔ Json.Concur id old new)) := by
  have rounded : changes = [] ↔ Json.Concur Number.rounded old new := by
    rw [concur_iff_of_renders (renders_of_document builtOld) (renders_of_document builtNew)]
    exact unreported_iff_concur limit room builtOld builtNew hs ht ended
  have unreported (same : Json.Concur id old new) : changes = [] := rounded.mpr same.rounded
  refine ⟨rounded, unreported, fun exactOld exactNew => ⟨fun none => ?_, unreported⟩⟩
  exact (rounded.mp none).exact exactOld exactNew

/-! ### An example -/

/-- An object with an identifier and a total that is at least some number. -/
def invoice (least : Int) : Json :=
  .obj [("type", .str "object"), ("required", .arr [.str "total", .str "id"]),
    ("properties", .obj [
      ("id", .obj [("type", .str "string"), ("minLength", .num (.int 0))]),
      ("total", .obj [("type", .str "number"), ("minimum", .num (.int least))])])]

/-- The same in other words: the kind of the object is left to its properties, and the kind of the
total is a list. -/
def invoiceRestated (least : Int) : Json :=
  .obj [("required", .arr [.str "id", .str "total", .str "id"]),
    ("properties", .obj [
      ("total", .obj [("type", .arr [.str "number"]), ("minimum", .num (.int least))]),
      ("id", .obj [("minLength", .num (.int 0)), ("type", .str "string")])])]

def identifierSchema : Schema :=
  { everything with kinds := some [.string], text := { StringRules.none with minLength := some 0 } }

def totalSchema (least : Int) : Schema :=
  { everything with
    kinds := some [.number]
    number := { NumberRules.none with minimum := some (Double.ofInt least) } }

def invoiceSchema (kinds : Option (List Kind)) (properties : List (String × Schema)) : Schema :=
  { everything with kinds, properties, required := ["id", "total"] }

def originalSchema (least : Int) : Schema :=
  invoiceSchema (some [.object]) [("id", identifierSchema), ("total", totalSchema least)]

def restatedSchema (least : Int) : Schema :=
  invoiceSchema none [("total", totalSchema least), ("id", identifierSchema)]

theorem identifierSchema_bare : identifierSchema.Throughout Bare :=
  throughout_iff.mpr ⟨⟨⟨fun _ hks => ⟨_, (Option.some.inj hks).symm⟩, rfl⟩, rfl, rfl, rfl⟩,
    fun _ hu => by cases hu <;> contradiction⟩

theorem totalSchema_bare (least : Int) : (totalSchema least).Throughout Bare :=
  throughout_iff.mpr ⟨⟨⟨fun _ hks => ⟨_, (Option.some.inj hks).symm⟩, rfl⟩, rfl, rfl, rfl⟩,
    fun _ hu => by cases hu <;> contradiction⟩

theorem invoiceSchema_bare {kinds : Option (List Kind)} {properties : List (String × Schema)}
    (single : ∀ ks, kinds = some ks → ∃ k, ks = [k])
    (bare : ∀ f ∈ properties, f.2.Throughout Bare) :
    (invoiceSchema kinds properties).Throughout Bare := by
  refine throughout_iff.mpr ⟨⟨⟨single, rfl⟩, rfl, rfl, rfl⟩, fun u hu => ?_⟩
  cases hu with
  | property hu => exact bare _ hu
  | _ => contradiction

theorem originalSchema_bare (least : Int) : (originalSchema least).Throughout Bare := by
  refine invoiceSchema_bare (fun _ hks => ⟨_, (Option.some.inj hks).symm⟩) fun f hf => ?_
  rcases List.mem_pair.mp hf with rfl | rfl
  · exact identifierSchema_bare
  · exact totalSchema_bare least

theorem restatedSchema_bare (least : Int) : (restatedSchema least).Throughout Bare := by
  refine invoiceSchema_bare nofun fun f hf => ?_
  rcases List.mem_pair.mp hf with rfl | rfl
  · exact totalSchema_bare least
  · exact identifierSchema_bare

/-- Invoices of one content have one least total. -/
theorem least_eq_of_concur {m n : Int} (h : Json.Concur id (invoice m) (invoiceRestated n)) :
    m = n := by
  rcases (Json.concur_iff.mp h).properties "total" with total
  cases total with
  | some total =>
    rcases (Json.concur_iff.mp total).bound .minimum with least
    cases least with
    | some same => exact Number.same_int.mp same

/-- Two least totals that are rounded to one double make a difference in content, and nothing is
reported. Two that are not do so and are reported. -/
theorem unreported_exact_invoices :
    let old := invoice 9007199254740992
    let near := invoiceRestated 9007199254740993
    let far := invoiceRestated 9007199254740994
    (1 : Int) ≤ 1 ∧ Schema.ofDocument old = .ok (originalSchema 9007199254740992) ∧
    Schema.ofDocument near = .ok (restatedSchema 9007199254740993) ∧
    Schema.ofDocument far = .ok (restatedSchema 9007199254740994) ∧
    (originalSchema 9007199254740992).Throughout Bare ∧
    (restatedSchema 9007199254740993).Throughout Bare ∧
    (restatedSchema 9007199254740994).Throughout Bare ∧
    (ofDocuments .standard 1 old near).changes = .ok [] ∧
    Json.Concur Number.rounded old near ∧ ¬Json.Concur id old near ∧
    (∃ changes, (ofDocuments .standard 1 old far).changes = .ok changes ∧ changes ≠ []) ∧
    ¬Json.Concur Number.rounded old far := by
  intro old near far
  have built : Schema.ofDocument old = .ok (originalSchema 9007199254740992) := rfl
  have builtNear : Schema.ofDocument near = .ok (restatedSchema 9007199254740993) := rfl
  have builtFar : Schema.ofDocument far = .ok (restatedSchema 9007199254740994) := rfl
  have counts : (ofDocuments .standard 1 old near).changes.toOption.map List.length = some 0 ∧
      (ofDocuments .standard 1 old far).changes.toOption.map List.length = some 1 := by
    decide +kernel
  obtain ⟨none_left, silent, empty⟩ := Option.map_eq_some_iff.mp counts.1
  obtain rfl := List.eq_nil_of_length_eq_zero empty
  obtain ⟨changes, ended, one⟩ := Option.map_eq_some_iff.mp counts.2
  have differs : changes ≠ [] := List.ne_nil_of_length_eq_add_one one
  have bare := originalSchema_bare 9007199254740992
  have bareNear := restatedSchema_bare 9007199254740993
  have bareFar := restatedSchema_bare 9007199254740994
  have concur := unreported_exact .standard (Int.le_refl 1) built builtNear bare bareNear
    (ok_of_toOption silent)
  have differ := unreported_exact .standard (Int.le_refl 1) built builtFar bare bareFar
    (ok_of_toOption ended)
  exact ⟨Int.le_refl 1, built, builtNear, builtFar, bare, bareNear, bareFar, ok_of_toOption silent,
    concur.1.mp rfl, fun same => absurd (least_eq_of_concur same) (by decide),
    ⟨changes, ok_of_toOption ended, differs⟩, fun same => differs (differ.1.mpr same)⟩

end Comparison

end SchemaDrift
