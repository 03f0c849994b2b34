import SchemaDrift.Comparison
import SchemaDrift.Proofs.Relevance
import SchemaDrift.Proofs.Schema.Likeness
import SchemaDrift.Proofs.Silence
import SchemaDrift.Proofs.Transparency

/-!
# What is lost on further properties

Where both sides have a schema for further properties, the two are compared unless they are alike
as written. Likeness does not follow references and takes `true` for one, so changes can be lost.

* `Course.silent_of_alike`: schemas that are alike have nothing to report if their constants are
  alike only where they are equal, and if either the roots agree on all references or there are
  none.
* `Comparing.additional_exact` says when nothing is lost.
* `Comparing.redefined_lost` and `Comparing.constant_lost`: changes are lost indeed, both where a
  reference leads to something else and where a constant became one that is alike.
-/

namespace SchemaDrift

/-! ## Schemas that are alike -/

/-- Schemas that are alike have nothing to report unless their constants or their references differ
all the same. -/
theorem Course.silent_of_alike {setting : Setting} (solves : setting.align = Assignment.solve)
    (levels : Nat) {v : Visit} (alike : v.old.alike v.new = true)
    (consts : v.old.ConstsCoincide v.new)
    (refs : setting.old.Agree setting.new ∨ Unreferring v) :
    (within setting levels v).emitted = [] := by
  have agreed := Schema.agree_of_alike alike consts
  cases refs with
  | inl refs => exact within_silent solves refs levels agreed
  | inr unreferring =>
    -- Without references the roots may as well be empty, and then they agree.
    rw [← within_of_unreferring ⟨[]⟩ ⟨[]⟩ levels unreferring]
    have rootless : ({ setting with old := ⟨[]⟩, new := ⟨[]⟩ } : Setting).align = Assignment.solve :=
      solves
    exact within_silent rootless References.agree_empty levels agreed

namespace Comparing

/-- What a visit does for the rules of two schemas on further properties. -/
def additional (setting : Setting) (levels : Nat) (path : String) (old new : Schema) :
    Comparing Unit :=
  Session.each (perform (compareWithin setting levels) path) (Task.additionalTasks old new)

/-- The comparison of the two schemas for further properties, whatever they look like. -/
def descent (setting : Setting) (levels : Nat) (path : String) (s t : Schema) : Comparing Unit :=
  compareWithin setting levels ⟨path ++ ".<additionalProperties>", s, t, false⟩

variable {setting : Setting} {old new s t : Schema}

theorem additional_of_alike (hs : old.additional = some s) (ht : new.additional = some t)
    (alike : s.alike t = true) (levels : Nat) (path : String) :
    additional setting levels path old new = Session.done () := by
  unfold additional Task.additionalTasks
  rw [hs, ht]
  dsimp only
  rw [if_pos alike]
  rfl

theorem additional_of_not_alike (hs : old.additional = some s) (ht : new.additional = some t)
    (different : s.alike t = false) (levels : Nat) (path : String) :
    additional setting levels path old new = descent setting levels path s t := by
  unfold additional Task.additionalTasks
  rw [hs, ht]
  dsimp only
  rw [different, if_neg Bool.false_ne_true, Session.each_singleton]
  rfl

theorem descent_silent (memoised : setting.pricing = Setting.memoised)
    (solves : setting.align = Assignment.solve) (levels : Nat) (path : String)
    (alike : s.alike t = true) (consts : s.ConstsCoincide t)
    (refs : setting.old.Agree setting.new ∨ s.Unreferring ∧ t.Unreferring) {notebook : Notebook}
    (sound : Course.HoldsPrices setting notebook) :
    (descent setting levels path s t notebook).1.emitted = [] := by
  let v : Visit := ⟨path ++ ".<additionalProperties>", s, t, false⟩
  obtain ⟨-, -, -, enough, below⟩ := Course.tracks_memoised memoised levels v notebook sound
  have first := (below enough (Nat.le_refl _)).1
  have silent : (Course.within setting enough v).emitted = [] :=
    Course.silent_of_alike solves enough alike consts refs
  rw [silent] at first
  exact List.prefix_nil.mp first

/-- Of two schemas that both have one for further properties, the same is reported as if these were
always compared, unless they are alike as written and differ all the same. This takes constants
that are alike without being equal, or references on which the roots do not agree. It does not
depend on what is remembered by then. -/
theorem additional_exact (oldRoot newRoot : Schema) (limit : DepthLimit) (levels : Nat)
    (path : String) (hs : old.additional = some s) (ht : new.additional = some t)
    {notebook : Notebook}
    (sound : Course.HoldsPrices (.ofRoots oldRoot newRoot limit.value) notebook) :
    ((additional (.ofRoots oldRoot newRoot limit.value) levels path old new notebook).1.emitted =
        (descent (.ofRoots oldRoot newRoot limit.value) levels path s t notebook).1.emitted ↔
      (s.alike t = true →
        (descent (.ofRoots oldRoot newRoot limit.value) levels path s t notebook).1.emitted =
          [])) ∧
    (s.ConstsCoincide t →
      (References.ofRoot oldRoot).Agree (.ofRoot newRoot) ∨ s.Unreferring ∧ t.Unreferring →
      (additional (.ofRoots oldRoot newRoot limit.value) levels path old new notebook).1.emitted =
        (descent (.ofRoots oldRoot newRoot limit.value) levels path s t notebook).1.emitted) := by
  cases alike : s.alike t with
  | false =>
    rw [additional_of_not_alike hs ht alike]
    exact ⟨⟨fun _ => nofun, fun _ => rfl⟩, fun _ _ => rfl⟩
  | true =>
    rw [additional_of_alike hs ht alike]
    refine ⟨⟨fun same _ => same.symm, fun silent => (silent rfl).symm⟩, fun consts refs => ?_⟩
    exact (descent_silent rfl rfl levels path alike consts refs sound).symm

/-- A reference to a definition. -/
def defined : Schema := { Schema.everything with reference := some "#/definitions/A" }

/-- A schema with further properties as the definition has them, and the definition. -/
def defining (k : Kind) : Schema :=
  { Schema.everything with
    additional := some defined
    definitions := [("A", { Schema.everything with kinds := some [k] })] }

/-- The setting for two roots that define the same name differently. -/
def redefined : Setting := .ofRoots (defining .string) (defining .integer) DepthLimit.standard.value

/-- The notebook at the beginning. -/
def blank : Notebook := (.empty 1024, [])

/-- A definition that has changed goes unnoticed behind further properties. -/
theorem redefined_lost :
    (additional redefined 128 "" (defining .string) (defining .integer) blank).1.emitted = [] ∧
    (descent redefined 128 "" defined defined blank).1.emitted =
      [⟨".<additionalProperties>", .typeRemove .string⟩,
        ⟨".<additionalProperties>", .typeAdd .integer⟩] := by
  constructor <;> rfl

/-- The two references are alike as written, and the changes behind them are lost. -/
theorem additional_exact_redefined :
    (defining .string).additional = some defined ∧ (defining .integer).additional = some defined ∧
    Course.HoldsPrices redefined blank ∧
    ((additional redefined 128 "" (defining .string) (defining .integer) blank).1.emitted =
        (descent redefined 128 "" defined defined blank).1.emitted ↔
      (defined.alike defined = true →
        (descent redefined 128 "" defined defined blank).1.emitted = [])) ∧
    (additional redefined 128 "" (defining .string) (defining .integer) blank).1.emitted ≠
      (descent redefined 128 "" defined defined blank).1.emitted := by
  have left : (defining .string).additional = some defined := rfl
  have right : (defining .integer).additional = some defined := rfl
  have sound : Course.HoldsPrices redefined blank := Memo.sound_empty (by decide)
  obtain ⟨exactly, -⟩ :=
    additional_exact (defining .string) (defining .integer) .standard 128 "" left right sound
  refine ⟨left, right, sound, exactly, fun same => ?_⟩
  have silent : (descent redefined 128 "" defined defined blank).1.emitted = [] :=
    exactly.mp same (by decide)
  rw [redefined_lost.2] at silent
  exact nomatch silent

/-! ## Constants that are alike -/

def constant (x : Json) : Schema := { Schema.everything with const := some x }

theorem constant_alike {x y : Json} (alike : x.alike y = true) :
    (constant x).alike (constant y) = true := by
  have same : Schema.constAlike (some x) (some y) = true := alike
  unfold constant Schema.everything
  rw [Schema.alike]
  dsimp only
  rw [same]
  rfl

theorem tasksOf_constant {x y : Json} (hx : x.kind ≠ .object) (hy : y.kind ≠ .object) (path : String) :
    Course.tasksOf setting ⟨path, constant x, constant y, false⟩ =
      (Task.typeEdits (constant x) (constant y) ++ Task.constEdits (constant x) (constant y)).map
        .report := by
  have unfolded {x : Json} (hx : x.kind ≠ .object) : (constant x).unfoldConst = constant x :=
    Schema.unfoldConst_of_kind fun z hz => by rw [← Option.some.inj hz]; exact hx
  have split : Course.isSplit setting ⟨path, constant x, constant y, false⟩ = false := rfl
  show tasks false (Course.isSplit setting _) (constant x) (constant y) = _
  rw [split]
  unfold tasks
  rw [unfolded hx, unfolded hy, List.map_append]
  exact List.append_nil _

/-- Whatever two constants are alike without being equal, a change from one to the other is lost. -/
theorem constant_lost {x y : Json} (alike : x.alike y = true) (different : x.equal y = false)
    (hx : x.kind ≠ .object) (hy : y.kind ≠ .object) (memoised : setting.pricing = Setting.memoised)
    (hs : old.additional = some (constant x)) (ht : new.additional = some (constant y))
    (levels : Nat) (path : String) {notebook : Notebook}
    (sound : Course.HoldsPrices setting notebook) :
    (additional setting (levels + 1) path old new notebook).1.emitted = [] ∧
      ⟨path ++ ".<additionalProperties>", .constAdd y⟩ ∈
        (descent setting (levels + 1) path (constant x) (constant y) notebook).1.emitted := by
  constructor
  · rw [additional_of_alike hs ht (constant_alike alike)]
    rfl
  · let v : Visit := ⟨path ++ ".<additionalProperties>", constant x, constant y, false⟩
    obtain ⟨-, -, above, -⟩ := Course.tracks_memoised memoised (levels + 1) v notebook sound
    refine above.1.subset ?_
    have priced : (Course.prices (Course.price setting levels)
        (Course.branchesOf setting v)).result = .ok [] := rfl
    have jobs : Course.jobs setting v [] =
        ((Task.typeEdits (constant x) (constant y) ++ Task.constEdits (constant x) (constant y)).map
          fun e => Change.mk v.path e).map .report := by
      show ([] : List Course.Job) ++ (Course.tasksOf setting v).map (Course.Job.ofTask v.path) = _
      rw [tasksOf_constant hx hy, List.nil_append, List.map_map, List.map_map]
      rfl
    show _ ∈ (Course.within setting (levels + 1) v).emitted
    rw [Course.within_of_prices priced, jobs, Course.each_reports]
    refine List.mem_map_of_mem (List.mem_append_right _ ?_)
    show _ ∈ if x.equal y = true then [] else [Edit.constRemove x, .constAdd y]
    rw [different]
    exact List.mem_cons_of_mem _ List.mem_cons_self

end Comparing

end SchemaDrift
