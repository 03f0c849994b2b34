import SchemaDrift.Proofs.Compatibility
import SchemaDrift.Proofs.Schema.Stated

/-!
# Values that slip between bounds

Documents are judged here by their bounds as they are written. A comparison judges rounded bounds,
so it may take a bound for one that is as lax although some numbers lie between the two. Of the
values that a document accepts, a compatible one rejects those with such a number in them and no
others.

* `Json.Accepts` says which values a plain document accepts, `Json.Admits` what it asks of the value
  itself. What formats and patterns mean is left open.
* `Json.Slips` says that a value has a number in it that satisfies a bound and violates the new one,
  where rounding makes the new one as lax.
* `Json.not_slips_of_unrounded`: there is none if doubles hold all bounds.
* `Json.admits_of_harmless`: rules that were edited harmlessly admit what they admitted, unless it
  slips.
* `Comparison.compatible_exact` is the main statement.
-/

namespace SchemaDrift

open Schema

/-! ## What a document accepts -/

namespace Json

/-- The rules of a document on a value itself. A rule on values of one kind says nothing about
others. -/
structure Admits (meaning : TextMeaning) (d v : Json) : Prop where
  kind : ∀ names, d.kindNames? = some names →
    ∃ k : Kind, .str k.name ∈ names ∧ v.hasKind k = true
  const : ∀ c, d.rule? "const" = some c → v.equal c = true
  bound : ∀ n, v = .num n → ∀ b : Bound, ∀ m, d.number? b.keyword = some m →
    n.related b.demand m = true
  minLength : ∀ text, v = .str text → ∀ m, d.number? "minLength" = some m →
    (Number.int text.length).related .atLeast m = true
  maxLength : ∀ text, v = .str text → ∀ m, d.number? "maxLength" = some m →
    (Number.int text.length).related .atMost m = true
  format : ∀ text, v = .str text → ∀ f, d.text? "format" = some f → meaning.conforms f text
  pattern : ∀ text, v = .str text → ∀ p, d.text? "pattern" = some p → meaning.fits p text
  required : ∀ fs, v = .obj fs → ∀ name, d.Requires name → (fs.lookup name).isSome = true

/-- A plain document accepts a value: its rules admit the value, its properties accept the values
under their names, and its rule on items accepts every item. -/
inductive Accepts (meaning : TextMeaning) : Json → Json → Prop where
  | intro {d v : Json} (here : d.Admits meaning v)
    (properties : ∀ fs name u x, v = .obj fs → d.property? name = some u →
      fs.lookup name = some x → Accepts meaning u x)
    (items : ∀ xs u x, v = .arr xs → d.items? = some (.every u) → x ∈ xs → Accepts meaning u x) :
    Accepts meaning d v

/-- A number in the value satisfies a bound of the first document and violates the one of the second
document there, although that is as lax when both are rounded. -/
inductive Slips : Json → Json → Json → Prop where
  | bound {d e : Json} {b : Bound} {m m' n : Number} :
    d.number? b.keyword = some m → e.number? b.keyword = some m' →
    m.rounded.related b.demand.lax m'.rounded = true → n.related b.demand m = true →
    n.related b.demand m' = false → Slips d e (.num n)
  | property {d e u w x : Json} {name : String} {fs : List (String × Json)} :
    d.property? name = some u → e.property? name = some w → fs.lookup name = some x →
    Slips u w x → Slips d e (.obj fs)
  | item {d e u w x : Json} {xs : List Json} :
    d.items? = some (.every u) → e.items? = some (.every w) → x ∈ xs → Slips u w x →
    Slips d e (.arr xs)

variable {d e v : Json} {meaning : TextMeaning}

theorem Slips.not_accepts (h : Slips d e v) : ¬e.Accepts meaning v := by
  induction h with
  | bound _ hm' _ _ violated =>
    rintro ⟨here, -, -⟩
    exact Bool.false_ne_true (violated.symm.trans (here.bound _ rfl _ _ hm'))
  | property _ hw hx _ ih =>
    rintro ⟨-, properties, -⟩
    exact ih (properties _ _ _ _ rfl hw hx)
  | item _ hw hx _ ih =>
    rintro ⟨-, -, items⟩
    exact ih (items _ _ _ rfl hw hx)

/-- Nothing slips between bounds that doubles hold. -/
theorem not_slips_of_unrounded (old : d.Unrounded) (new : e.Unrounded) : ¬Slips d e v := by
  intro h
  induction h with
  | @bound d e b m m' n hm hm' lax satisfied violated =>
    rw [Number.related_congr (old.bound hm)] at satisfied
    have within := (Number.related_congr (new.bound hm') b.demand).mpr
      (Number.related_trans satisfied lax)
    exact Bool.false_ne_true (violated.symm.trans within)
  | property hu hw _ _ ih => exact ih (old.property hu) (new.property hw)
  | item hu hw _ _ ih => exact ih (old.every hu) (new.every hw)

end Json

/-! ## Rules apart from bounds -/

namespace Schema

/-- The schema without its own bounds. -/
def unbounded (s : Schema) : Schema := { s with number := .none }

theorem typing_unbounded (s : Schema) : s.unbounded.typing = s.typing := by
  cases s
  unfold unbounded typing
  rfl

theorem PlainRules.unbounded {s : Schema} (h : s.PlainRules) : s.unbounded.PlainRules :=
  { h with }

theorem harmless_unbounded {s t : Schema} (hs : s.PlainRules) (ht : t.PlainRules)
    (h : Task.Harmless (ruleEdits s t)) : Task.Harmless (ruleEdits s.unbounded t.unbounded) := by
  have kinds : Task.typeEdits s.unbounded t.unbounded = Task.typeEdits s t := by
    unfold Task.typeEdits
    rw [typing_unbounded, typing_unbounded]
  have bounds : Task.rangeEdits s.unbounded t.unbounded = [] := by
    unfold Task.rangeEdits
    rw [hs.unbounded.boundsOf_eq, ht.unbounded.boundsOf_eq, List.flatMap_eq_nil_iff]
    intro b _
    cases b <;> rfl
  unfold ruleEdits
  rw [kinds, bounds]
  exact (((h.left.left.left.left.append h.left.left.left.right).append .nil).append
    h.left.right).append h.right

theorem length_atLeast_iff {m : Number} {l n : Nat} (h : m.same (.int n) = true) :
    (Number.int l).related .atLeast m = true ↔ n ≤ l := by
  rw [Number.related_congr h, Number.related_int]
  show (!Relation.below.holds (compare (l : Int) n)) = true ↔ n ≤ l
  rw [Relation.holds_below]
  simp

theorem length_atMost_iff {m : Number} {l n : Nat} (h : m.same (.int n) = true) :
    (Number.int l).related .atMost m = true ↔ l ≤ n := by
  rw [Number.related_congr h, Number.related_int]
  show (!Relation.above.holds (compare (l : Int) n)) = true ↔ l ≤ n
  rw [Relation.holds_above]
  simp

end Schema

/-! ## Harmless edits -/

namespace Json

variable {d e v : Json} {s t : Schema} {meaning : TextMeaning}

/-- What a document demands of a value, apart from its bounds, is what its schema demands. -/
theorem admits_iff_of_renders (h : Renders d s) :
    d.Admits meaning v ↔ s.unbounded.Admits meaning v ∧
      ∀ n, v = .num n → ∀ b : Bound, ∀ m, d.number? b.keyword = some m →
        n.related b.demand m = true := by
  have kind : (∀ names, d.kindNames? = some names →
      ∃ k : Kind, .str k.name ∈ names ∧ v.hasKind k = true) ↔
      ∀ ks, s.kinds = some ks → ∃ k ∈ ks, v.hasKind k = true := by
    rw [h.kinds]
    cases s.kinds with
    | none => exact ⟨nofun, nofun⟩
    | some ks => simp [Kind.name_inj]
  have shortest : (∀ text, v = .str text → ∀ m, d.number? "minLength" = some m →
      (Number.int text.length).related .atLeast m = true) ↔
      ∀ text, v = .str text → ∀ n, s.text.minLength = some n → n ≤ text.length :=
    forall_congr' fun _ => imp_congr_right fun _ =>
      forall_rel_iff h.minLength fun _ _ => length_atLeast_iff
  have longest : (∀ text, v = .str text → ∀ m, d.number? "maxLength" = some m →
      (Number.int text.length).related .atMost m = true) ↔
      ∀ text, v = .str text → ∀ n, s.text.maxLength = some n → text.length ≤ n :=
    forall_congr' fun _ => imp_congr_right fun _ =>
      forall_rel_iff h.maxLength fun _ _ => length_atMost_iff
  constructor
  · intro a
    refine ⟨⟨kind.mp a.kind, fun c hc => a.const c (h.const.trans hc), ?_, shortest.mp a.minLength,
      longest.mp a.maxLength, fun text hv f hf => a.format text hv f (h.format.trans hf),
      fun text hv p hp => a.pattern text hv p (h.pattern.trans hp),
      fun fs hv name hname => a.required fs hv name ((h.required name).mpr hname)⟩, a.bound⟩
    intro n _ b x absent
    cases b <;> exact nomatch absent
  · rintro ⟨a, bound⟩
    exact ⟨kind.mpr a.kind, fun c hc => a.const c (h.const.symm.trans hc), bound,
      shortest.mpr a.minLength, longest.mpr a.maxLength,
      fun text hv f hf => a.format text hv f (h.format.symm.trans hf),
      fun text hv p hp => a.pattern text hv p (h.pattern.symm.trans hp),
      fun fs hv name hname => a.required fs hv name ((h.required name).mp hname)⟩

/-- Rules that were edited harmlessly admit what they admitted, unless it slips. -/
theorem admits_of_harmless (hd : Renders d s) (he : Renders e t) (hs : s.PlainRules)
    (ht : t.PlainRules) (harmless : Task.Harmless (ruleEdits s t)) (here : d.Admits meaning v)
    (holds : ¬Slips d e v) : e.Admits meaning v := by
  obtain ⟨apart, bounds⟩ := (admits_iff_of_renders hd).mp here
  refine (admits_iff_of_renders he).mpr ⟨hs.unbounded.admits_of_harmless ht.unbounded
    (harmless_unbounded hs ht harmless) apart, fun n hv b m' hm' => ?_⟩
  subst hv
  by_contra violated
  have new : Task.boundValue (Task.boundsOf t) b = some m'.toDouble := by
    rw [ht.boundsOf_eq, he.bound, hm']
    rfl
  obtain ⟨x, old, lax⟩ := Task.lax_of_harmless harmless.left.left.right b new
  rw [hs.boundsOf_eq, hd.bound] at old
  obtain ⟨m, hm, rfl⟩ := Option.map_eq_some_iff.mp old
  exact holds (.bound hm hm' lax (bounds n rfl b m hm) (Bool.eq_false_iff.mpr violated))

end Json

/-! ## The whole comparison -/

namespace Course

variable {setting : Setting} {d e : Json} {s t : Schema}

/-- A plain document accepts what another one accepted from which it does not differ in a breaking
way, unless it slips. The induction is on the levels: the rules on the value itself are compared
here, properties and items one level below. -/
theorem accepts_of_harmless {meaning : TextMeaning} (levels : Nat) {path : String}
    (hd : Renders d s) (he : Renders e t) (hs : s.Plain) (ht : t.Plain)
    (ended : (within setting levels ⟨path, s, t, false⟩).result = .ok ())
    (harmless : ∀ c ∈ (within setting levels ⟨path, s, t, false⟩).emitted, c.isBreaking = false)
    {v : Json} (holds : ¬Json.Slips d e v) (accepted : d.Accepts meaning v) :
    e.Accepts meaning v := by
  induction levels generalizing path d e s t v with
  | zero => exact nomatch ended
  | succ levels ih =>
    have tasks := tasksOf_plain setting hs.rules ht.rules path
    have reports {e : Edit} (he : .report e ∈ tasksOf setting ⟨path, s, t, false⟩) :
        e.isBreaking = false :=
      harmless ⟨path, e⟩ ((task_of_within ended he).2 _ List.mem_cons_self)
    have descends {step : Step} {u w : Schema} {d e x : Json}
        (h : .descend step u w ∈ tasksOf setting ⟨path, s, t, false⟩) (hd : ReadTo d u)
        (he : ReadTo e w) (hu : u.Plain) (hw : w.Plain) (holds : ¬Json.Slips d e x)
        (hx : d.Accepts meaning x) : e.Accepts meaning x := by
      obtain ⟨below, among⟩ := task_of_within ended h
      exact ih (renders_of_read (hd .root)) (renders_of_read (he .root)) hu hw below
        (fun c hc => harmless c (among c hc)) holds hx
    rw [tasks] at reports descends
    obtain ⟨here, properties, items⟩ := accepted
    have edits : Task.Harmless (ruleEdits s t) := fun e he => reports (report_mem_plainTasks he)
    refine .intro (Json.admits_of_harmless hd he hs.rules ht.rules edits here holds) ?_ ?_
    · intro fs name y x hv hy hx
      subst hv
      obtain ⟨w, hw, reads⟩ := rel_some_left (he.properties name) hy
      have known := Task.property_of_harmless hs.rules.isOpen
        (fun e he => reports (property_mem_plainTasks he)) (by rw [hw]; rfl)
      obtain ⟨u, hu⟩ := Option.isSome_iff_exists.mp known
      obtain ⟨z, hz, reads'⟩ := rel_some_right (hd.properties name) hu
      exact descends (property_mem_plainTasks (Task.descend_property hu hw)) reads' reads
        (hs.property hu) (ht.property hw) (fun slips => holds (.property hz hy hx slips))
        (properties fs name z x rfl hz hx)
    · intro xs y x hv hy hx
      subst hv
      obtain ⟨rule, hw, matched⟩ := rel_some_left he.items hy
      obtain ⟨w, rfl, reads⟩ : ∃ w, rule = .every w ∧ ReadTo y w := by
        cases matched with
        | every reads => exact ⟨_, rfl, reads⟩
      have kept : ∀ k ∈ s.typing.admitted, k ∈ t.typing.admitted := fun _ =>
        Task.typing_of_harmless edits.left.left.left.left
      obtain ⟨u, hu⟩ := hs.rules.items_of_kept ht.rules kept (by rw [hw]; rfl)
      obtain ⟨rule, hz, matched⟩ := rel_some_right hd.items hu
      obtain ⟨z, rfl, reads'⟩ : ∃ z, rule = .every z ∧ ReadTo z u := by
        cases matched with
        | every reads => exact ⟨_, rfl, reads⟩
      exact descends (item_mem_plainTasks (Task.descend_items hu hw)) reads' reads (hs.item hu)
        (ht.item hw) (fun slips => holds (.item hz hy hx slips)) (items xs z x rfl hz hx)

end Course

namespace Comparison

/-- If a comparison finds a plain document compatible, it accepts a value that the old one accepts
exactly if nothing in the value slips between two bounds, whatever formats and patterns mean. If
doubles hold all bounds it accepts every such value. -/
theorem compatible_exact (limit : DepthLimit) {capacity : Int} (room : 1 ≤ capacity)
    {old new : Json} {s t : Schema} (builtOld : Schema.ofDocument old = .ok s)
    (builtNew : Schema.ofDocument new = .ok t) (hs : s.Plain) (ht : t.Plain)
    (compatible : (ofDocuments limit capacity old new).isBackwardCompatible = .ok true)
    (meaning : TextMeaning) (v : Json) (accepted : old.Accepts meaning v) :
    (new.Accepts meaning v ↔ ¬Json.Slips old new v) ∧
      (old.Unrounded → new.Unrounded → new.Accepts meaning v) := by
  obtain ⟨n, room, compared⟩ := ofDocuments_eq limit room builtOld builtNew
  rw [compared] at compatible
  obtain ⟨completed, harmless⟩ := harmless_of_compatible compatible
  obtain ⟨levels, -, course, -⟩ := ofRoots_between s t limit (Memo.sound_empty room)
  have course := course completed
  have kept (holds : ¬Json.Slips old new v) : new.Accepts meaning v := by
    refine Course.accepts_of_harmless levels (renders_of_document builtOld)
      (renders_of_document builtNew) hs ht (by rw [← rootVisit, course]) ?_ holds accepted
    rw [← rootVisit, course]
    exact harmless
  exact ⟨⟨fun accepts slips => slips.not_accepts accepts, kept⟩,
    fun exactOld exactNew => kept (Json.not_slips_of_unrounded exactOld exactNew)⟩

/-! ### An example -/

/-- An object with a list of one number. -/
def oneCount (n : Int) : Json := .obj [("counts", .arr [.num (.int n)])]

theorem statistics_accepts (least : Int) :
    (statistics "integer" least).Accepts anyText (oneCount least) := by
  have count : (Json.obj [("type", .str "integer"), ("minimum", .num (.int least))]).Accepts anyText
      (.num (.int least)) := by
    refine .intro ?_ nofun nofun
    constructor
    case kind => exact fun names hk => ⟨.integer, Option.some.inj hk ▸ List.mem_cons_self, rfl⟩
    case bound =>
      rintro n ⟨⟩ b m hm
      cases b with
      | minimum =>
        obtain rfl := Option.some.inj hm
        exact Number.related_lax_of_same (Number.same_int.mpr rfl) .atLeast
      | _ => exact nomatch hm
    all_goals exact nofun
  refine .intro ?_ ?_ nofun
  · constructor
    case kind => exact fun names hk => ⟨.object, Option.some.inj hk ▸ List.mem_cons_self, rfl⟩
    case bound => exact nofun
    case required =>
      rintro fs ⟨⟩ name ⟨xs, hxs, hname⟩
      obtain rfl := Json.arr.inj (Option.some.inj hxs)
      rw [Json.str.inj (List.mem_singleton.mp hname)]
      rfl
    all_goals exact nofun
  rintro fs name u x ⟨⟩ hu hx
  obtain ⟨rfl, rfl⟩ := Prod.mk.inj (List.mem_singleton.mp (Fields.mem_of_lookup hx))
  obtain rfl := Option.some.inj hu
  refine .intro ?_ nofun ?_
  · constructor
    case kind => exact fun names hk => ⟨.array, Option.some.inj hk ▸ List.mem_cons_self, rfl⟩
    all_goals exact nofun
  rintro xs u x ⟨⟩ hu hx
  obtain rfl := Items.every.inj (Option.some.inj hu)
  rw [List.mem_singleton.mp hx]
  exact count

theorem slips_of_least {d e : Json} (old : d.number? "minimum" = some (.int 9007199254740992))
    (new : e.number? "minimum" = some (.int 9007199254740993)) :
    Json.Slips d e (.num (.int 9007199254740992)) :=
  .bound (b := .minimum) old new (by decide +kernel) (by decide +kernel) (by decide +kernel)

theorem statistics_unrounded {kind : String} {least : Int}
    (exact : ∃ x : Double, (Number.int least).same (.double x) = true) :
    (statistics kind least).Unrounded := by
  have count : (Json.obj [("type", .str kind), ("minimum", .num (.int least))]).Unrounded := by
    refine .of_parts (fun b m hm => ?_) nofun nofun nofun
    cases b with
    | minimum =>
      obtain rfl := Option.some.inj hm
      exact exact
    | _ => exact nomatch hm
  refine .of_parts (fun b m hm => by cases b <;> exact nomatch hm) (fun name u hu => ?_) nofun nofun
  obtain ⟨-, rfl⟩ := Prod.mk.inj (List.mem_singleton.mp (Fields.mem_of_lookup hu))
  refine .of_parts (fun b m hm => by cases b <;> exact nomatch hm) nofun (fun u hu => ?_) nofun
  obtain rfl := Items.every.inj (Option.some.inj hu)
  exact count

/-- A least number that is rounded to another one lets the other one slip, and the verdict is still
that the new document is compatible. Nothing slips where both numbers are doubles. -/
theorem compatible_exact_statistics :
    let old := statistics "integer" 9007199254740992
    let near := statistics "integer" 9007199254740993
    let wide := statistics "number" 1
    (1 : Int) ≤ 1 ∧ Schema.ofDocument old = .ok (statisticsSchema .integer 9007199254740992) ∧
    Schema.ofDocument near = .ok (statisticsSchema .integer 9007199254740993) ∧
    Schema.ofDocument wide = .ok (statisticsSchema .number 1) ∧
    (statisticsSchema .integer 9007199254740992).Plain ∧
    (statisticsSchema .integer 9007199254740993).Plain ∧ (statisticsSchema .number 1).Plain ∧
    (ofDocuments .standard 1 old near).isBackwardCompatible = .ok true ∧
    (ofDocuments .standard 1 old wide).isBackwardCompatible = .ok true ∧
    old.Accepts anyText (oneCount 9007199254740992) ∧
    ¬near.Accepts anyText (oneCount 9007199254740992) ∧
    (old.Unrounded ∧ wide.Unrounded) ∧ wide.Accepts anyText (oneCount 9007199254740992) := by
  intro old near wide
  have built : Schema.ofDocument old = .ok (statisticsSchema .integer 9007199254740992) := rfl
  have builtNear : Schema.ofDocument near = .ok (statisticsSchema .integer 9007199254740993) := rfl
  have builtWide : Schema.ofDocument wide = .ok (statisticsSchema .number 1) := rfl
  have plain := statisticsSchema_plain .integer 9007199254740992 (by decide)
  have plainNear := statisticsSchema_plain .integer 9007199254740993 (by decide)
  have plainWide := statisticsSchema_plain .number 1 (by decide)
  have verdicts : (ofDocuments .standard 1 old near).isBackwardCompatible.toOption = some true ∧
      (ofDocuments .standard 1 old wide).isBackwardCompatible.toOption = some true := by
    decide +kernel
  have compatible := ok_of_toOption verdicts.1
  have compatibleWide := ok_of_toOption verdicts.2
  have accepted : old.Accepts anyText (oneCount 9007199254740992) := statistics_accepts _
  have slips : Json.Slips old near (oneCount 9007199254740992) :=
    @Json.Slips.property _ _ _ _ _ "counts" _ rfl rfl rfl
      (.item rfl rfl List.mem_cons_self (slips_of_least rfl rfl))
  have unrounded : old.Unrounded :=
    statistics_unrounded ⟨.ofInt 9007199254740992, by decide +kernel⟩
  have unroundedWide : wide.Unrounded := statistics_unrounded ⟨.ofInt 1, by decide +kernel⟩
  have lost := compatible_exact .standard (Int.le_refl 1) built builtNear plain plainNear compatible
    anyText _ accepted
  have kept := compatible_exact .standard (Int.le_refl 1) built builtWide plain plainWide
    compatibleWide anyText _ accepted
  exact ⟨Int.le_refl 1, built, builtNear, builtWide, plain, plainNear, plainWide, compatible,
    compatibleWide, accepted, fun accepts => lost.1.mp accepts slips, ⟨unrounded, unroundedWide⟩,
    kept.2 unrounded unroundedWide⟩

end Comparison

end SchemaDrift
