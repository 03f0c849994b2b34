import SchemaDrift.Proofs.Schema.Reordered
import SchemaDrift.Proofs.Silence
import SchemaDrift.Proofs.Transparency

/-!
# Order does not matter

A document and the same document in another order have nothing to report, whatever pairs the
alignment of branches picks: it may pick any pairs that cost nothing.

* `Comparison.ofRoots_between` places a comparison of roots between the courses with fewer and with
  more levels.
* `Comparison.reordered_silent` is the main statement.
-/

namespace SchemaDrift.Comparison

def rootVisit (old new : Schema) : Visit := ⟨"", old, new, false⟩

/-- How a comparison of roots comes out, given the outcome of the visit to the roots. -/
theorem ofRoots_eq (old new : Schema) (limit : DepthLimit) (memo : Memo (String × String) Nat) :
    let outcome := (compareWithin (Setting.ofRoots old new limit.value)
      ((Setting.ofRoots old new limit.value).levelsFrom 0) (rootVisit old new) (memo, [])).1
    (ofRoots limit memo old new).reported = outcome.emitted ∧
      ∀ e, (ofRoots limit memo old new).fault = some e ↔ outcome.result = .error e := by
  unfold ofRoots
  show _ ∧ _
  rcases run : compareWithin (Setting.ofRoots old new limit.value)
    ((Setting.ofRoots old new limit.value).levelsFrom 0) (rootVisit old new) (memo, []) with
    ⟨⟨items, e | u⟩, m, notes⟩ <;> simp_all [rootVisit]

/-- A comparison of roots follows its course. What it reports is the beginning of what is reported
with more levels, and it fails only where there are none left. -/
theorem ofRoots_between (old new : Schema) (limit : DepthLimit)
    {memo : Memo (String × String) Nat}
    (sound : memo.Sound (Course.IsPrice (Setting.ofRoots old new limit.value))) :
    ∃ levels,
      (ofRoots limit memo old new).reported <+:
        (Course.within (Setting.ofRoots old new limit.value) levels (rootVisit old new)).emitted ∧
      ((ofRoots limit memo old new).fault = none →
        Course.within (Setting.ofRoots old new limit.value) levels (rootVisit old new) =
          ⟨(ofRoots limit memo old new).reported, .ok ()⟩) ∧
      ∀ e, (ofRoots limit memo old new).fault = some e → Course.IsTooDeep limit.value e := by
  have tracked : Session.Tracks (Course.HoldsPrices (Setting.ofRoots old new limit.value)) _ _ _ _ :=
    Course.tracks_memoised rfl ((Setting.ofRoots old new limit.value).levelsFrom 0)
      (rootVisit old new)
  obtain ⟨-, faults, -, enough, below⟩ := tracked (memo, []) sound
  obtain ⟨reported, failed⟩ := ofRoots_eq old new limit memo
  -- A comparison with a memo may get further than its levels would take it without one.
  obtain ⟨first, same⟩ := below enough (Nat.le_refl _)
  refine ⟨enough, reported ▸ first, fun completed => ?_, fun e he => faults e ((failed e).mp he)⟩
  rcases ended : (compareWithin (Setting.ofRoots old new limit.value)
    ((Setting.ofRoots old new limit.value).levelsFrom 0) (rootVisit old new)
      (memo, [])).1.result with e | u
  · rw [(failed e).mpr ended] at completed
    exact nomatch completed
  · exact (same u ended).trans (Outcome.ext reported.symm ended)

theorem changes_eq_ok_iff {c : Comparison} {changes : List Change} :
    c.changes = .ok changes ↔ c.fault = none ∧ c.reported = changes := by
  unfold Comparison.changes
  rcases c.fault with _ | e <;> simp

/-- Two documents whose comparison comes to its end are schemas. -/
theorem documents_of_changes {limit : DepthLimit} {capacity : Int} {old new : Json}
    {changes : List Change} (h : (ofDocuments limit capacity old new).changes = .ok changes) :
    ∃ s t, Schema.ofDocument old = .ok s ∧ Schema.ofDocument new = .ok t := by
  unfold ofDocuments at h
  split at h
  · exact nomatch h
  · exact nomatch h
  · exact nomatch h
  · next s t _ hs ht _ => exact ⟨s, t, hs, ht⟩

/-- A comparison of two documents that comes to its end is one of their schemas. -/
theorem ofRoots_of_changes {limit : DepthLimit} {capacity : Int} {old new : Json} {s t : Schema}
    (hs : Schema.ofDocument old = .ok s) (ht : Schema.ofDocument new = .ok t)
    {changes : List Change} (h : (ofDocuments limit capacity old new).changes = .ok changes) :
    ∃ memo, (ofRoots limit memo s t).changes = .ok changes := by
  unfold ofDocuments at h
  rw [hs, ht] at h
  rcases room : Memo.ofCapacity capacity with e | memo
  · rw [room] at h
    exact nomatch h
  · rw [room] at h
    exact ⟨memo, h⟩

/-- What comes out of a comparison of two documents that are schemas. -/
theorem ofDocuments_eq (limit : DepthLimit) {capacity : Int} (room : 1 ≤ capacity)
    {old new : Json} {s t : Schema} (hs : Schema.ofDocument old = .ok s)
    (ht : Schema.ofDocument new = .ok t) :
    ∃ n, 1 ≤ n ∧ ofDocuments limit capacity old new = ofRoots limit (.empty n) s t := by
  obtain ⟨n, rfl⟩ := Int.eq_ofNat_of_zero_le (Int.le_trans Int.one_nonneg room)
  refine ⟨n, Int.ofNat_le.mp room, ?_⟩
  unfold ofDocuments
  rw [hs, ht]
  rfl

theorem reordered_reports_nothing (limit : DepthLimit) {capacity : Int} (room : 1 ≤ capacity)
    {old new : Json} (distinct : old.Throughout Json.DistinctKeys) {s : Schema}
    (built : Schema.ofDocument old = .ok s) (notNan : s.Throughout Schema.ConstNotNan)
    (h : Schema.Reordered old new) :
    (ofDocuments limit capacity old new).reported = [] ∧
      ∀ e, (ofDocuments limit capacity old new).fault = some e →
        Course.IsTooDeep limit.value e := by
  obtain ⟨t, built', agreed⟩ := Schema.ofDocument_reordered h distinct built
  obtain ⟨agreed, refs⟩ := agreed notNan
  obtain ⟨n, room, compared⟩ := ofDocuments_eq limit room built built'
  obtain ⟨levels, first, -, faults⟩ := ofRoots_between s t limit (Memo.sound_empty room)
  rw [compared]
  refine ⟨?_, faults⟩
  rw [Course.within_silent rfl refs levels agreed] at first
  exact List.prefix_nil.mp first

/-- A document and the same document with kinds, branches and properties in another order have
nothing to report: the comparison either comes to its end without a change, or it fails for going
too deep without having reported one. In particular a document has no changes against itself. -/
theorem reordered_silent (limit : DepthLimit) {capacity : Int} (room : 1 ≤ capacity)
    {old new : Json} (distinct : old.Throughout Json.DistinctKeys) {s : Schema}
    (built : Schema.ofDocument old = .ok s) (notNan : s.Throughout Schema.ConstNotNan)
    (h : Schema.Reordered old new) :
    ((ofDocuments limit capacity old new).changes = .ok [] ∨
      ∃ path, (ofDocuments limit capacity old new).fault = some (.tooDeep path limit.value) ∧
        (ofDocuments limit capacity old new).reported = []) ∧
    ∀ changes, (ofDocuments limit capacity old old).changes = .ok changes → changes = [] := by
  obtain ⟨silent, faults⟩ := reordered_reports_nothing limit room distinct built notNan h
  obtain ⟨silent', -⟩ :=
    reordered_reports_nothing limit room distinct built notNan (Schema.Reordered.refl old)
  refine ⟨?_, fun found ended => ?_⟩
  · rcases failed : (ofDocuments limit capacity old new).fault with _ | e
    · refine .inl ?_
      unfold changes
      rw [failed, silent]
    · obtain ⟨path, rfl⟩ := faults e failed
      exact .inr ⟨path, rfl, silent⟩
  · unfold changes at ended
    split at ended
    · rw [← Except.ok.inj ended, silent']
    · exact nomatch ended

/-- Two branches, a constant and a list of kinds. -/
def branched : Json :=
  .obj [("anyOf", .arr [.obj [("const", .num (.int 1))],
    .obj [("type", .arr [.str "null", .str "string"])]])]

/-- The same branches in the other order, and so the kinds. -/
def branchedBack : Json :=
  .obj [("anyOf", .arr [.obj [("type", .arr [.str "string", .str "null"])],
    .obj [("const", .num (.int 1))]])]

theorem branched_reordered : Schema.Reordered branched branchedBack := by
  have kinds : Schema.Rearranged Schema.Reordered "type" (.arr [.str "null", .str "string"])
      (.arr [.str "string", .str "null"]) := .kinds rfl (.swap _ _ _)
  have second : Schema.Reordered (.obj [("type", .arr [.str "null", .str "string"])])
      (.obj [("type", .arr [.str "string", .str "null"])]) := .object (.cons ⟨rfl, kinds⟩ .nil)
  exact .object (.cons ⟨rfl, .branches rfl (.cons (.refl _) (.cons second .nil)) (.swap _ _ _)⟩ .nil)

theorem branched_distinct : branched.Throughout Json.DistinctKeys := by
  simp [branched, Json.DistinctKeys, Fields.keys]

def branchedSchema : Schema :=
  { Schema.everything with
    anyOf := some [{ Schema.everything with const := some (.num (.int 1)) },
      { Schema.everything with kinds := some [.null, .string] }] }

theorem branched_notNan : branchedSchema.Throughout Schema.ConstNotNan := by
  refine Schema.throughout_iff.mpr ⟨nofun, fun u hu => ?_⟩
  have leaf : u = { Schema.everything with const := some (.num (.int 1)) } ∨
      u = { Schema.everything with kinds := some [.null, .string] } := by
    cases hu with
    | branch hs hmem =>
      rw [← Option.some.inj hs] at hmem
      simpa using hmem
    | _ => simp_all [branchedSchema, Schema.everything]
  rcases leaf with rfl | rfl
  · refine Schema.throughout_iff.mpr ⟨fun x hx => ?_, fun v hv => ?_⟩
    · obtain rfl := Option.some.inj hx
      simp [Json.NotNan]
    · cases hv <;> simp_all [Schema.everything]
  · refine Schema.throughout_iff.mpr ⟨nofun, fun v hv => ?_⟩
    cases hv <;> simp_all [Schema.everything]

/-- The branches are found again in the other order. -/
theorem reordered_silent_branched :
    (1 : Int) ≤ 1 ∧ branched.Throughout Json.DistinctKeys ∧
    Schema.ofDocument branched = .ok branchedSchema ∧
    branchedSchema.Throughout Schema.ConstNotNan ∧
    Schema.Reordered branched branchedBack ∧
    ((ofDocuments .standard 1 branched branchedBack).changes = .ok [] ∨
      ∃ path, (ofDocuments .standard 1 branched branchedBack).fault = some (.tooDeep path 128) ∧
        (ofDocuments .standard 1 branched branchedBack).reported = []) ∧
    ∀ changes, (ofDocuments .standard 1 branched branched).changes = .ok changes → changes = [] := by
  have built : Schema.ofDocument branched = .ok branchedSchema := by cbv
  exact ⟨Int.le_refl 1, branched_distinct, built, branched_notNan, branched_reordered,
    reordered_silent .standard (Int.le_refl 1) branched_distinct built branched_notNan
      branched_reordered⟩

end SchemaDrift.Comparison
