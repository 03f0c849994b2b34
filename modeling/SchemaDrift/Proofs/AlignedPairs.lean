import Mathlib.Data.Finset.Card
import Mathlib.Data.Finset.SymmDiff
import SchemaDrift.Proofs.Ties

/-!
# An aligned pair and its trial

A pair of branches is looked at twice: a trial prices it from the empty path, and if it is aligned,
it is visited at its place without a comparison of its kinds. The two report the same changes but
for the path and for the kinds of the pair itself, whatever prices either of them finds in the memo.

* `Setting.Reached` are the memos that comparisons of two roots come to hold, `Setting.Outcomes`
  what a session may come to with such a memo or without one.
* `Course.emitted_aligned`: the course of an aligned pair is that of the pair alone without the
  changes of its kinds at its path.
* `Setting.aligned_exact` is the main statement.
-/

namespace SchemaDrift

open Session

/-! ## Memos along the way -/

namespace Setting

/-- What a pair of branches costs at a depth. -/
def priceAt (setting : Setting) (depth : Int) (s t : Schema) : Comparing Nat :=
  setting.pricing
    (fun s t => tally (compareWithin setting (setting.levelsFrom depth) ⟨"", s, t, false⟩)) s t

/-- What all pairs of two lists of branches cost at a depth, row by row. -/
def squareAt (setting : Setting) (depth : Int) (olds news : List Schema) :
    Comparing (List (List Nat)) :=
  collect (fun s => collect (setting.priceAt depth s) news) olds

/-- These are the prices by which branches are aligned on the way. -/
example (setting : Setting) (depth : Int) (descend : Visit → Comparing Unit) (path : String)
    (split : Bool) (s t : Schema) (olds news : List Schema) :
    Comparing.alignBranches setting descend (setting.priceAt depth) path
        { s with anyOf := some olds } { t with anyOf := some news } split =
      Session.bind (setting.squareAt depth (Comparing.fillUp (max olds.length news.length) olds)
        (Comparing.fillUp (max olds.length news.length) news)) fun costs =>
          Session.bind (Comparing.note (.aligned path (Course.columns setting costs))) fun _ =>
            each descend (Comparing.branchVisits path split
              (Comparing.fillUp (max olds.length news.length) olds)
              (Comparing.fillUp (max olds.length news.length) news)
              (Course.columns setting costs)) := rfl

/-- The memos that comparisons of two roots come to hold: an empty one with room, and what is left
of such a memo after a key was looked up, a pair of branches was priced, or a call was answered,
also if any of it failed. -/
inductive Reached (setting : Setting) : Memo (String × String) Nat → Prop where
  | empty {capacity : Nat} : 1 ≤ capacity → Reached setting (.empty capacity)
  | lookedUp {memo : Memo (String × String) Nat} (key : String × String) :
      Reached setting memo → Reached setting (memo.lookUp key).2
  | priced {memo : Memo (String × String) Nat} (depth : Int) (s t : Schema) (notes : List Note) :
      Reached setting memo → Reached setting (setting.priceAt depth s t (memo, notes)).2.1
  | answered {memo : Memo (String × String) Nat} (call : Call) (notes : List Note) :
      Reached setting memo → Reached setting (setting.answer call (memo, notes)).2.1

/-- What a session may come to: with a memo that comparisons come to hold, or without memory. -/
inductive Outcomes {α : Type} (setting : Setting) (session : Setting → Comparing α) :
    Outcome Change Fault α → Prop where
  | remembering {memo : Memo (String × String) Nat} (notes : List Note) : setting.Reached memo →
      Outcomes setting session (session setting (memo, notes)).1
  | unremembering (notebook : Notebook) :
      Outcomes setting session (session setting.unremembered notebook).1

end Setting

namespace Course

variable {setting : Setting}

theorem tracks_priceAt (memoised : setting.pricing = Setting.memoised) (depth : Int)
    (s t : Schema) :
    Tracks (HoldsPrices setting) (IsTooDeep setting.limit) (setting.levelsFrom depth)
      (setting.priceAt depth s t) fun n => price setting n s t := by
  have priced := tracks_pricing (tracks_memoised memoised (setting.levelsFrom depth)) s t
  rw [← memoised] at priced
  exact priced

/-- A memo that comparisons come to hold is one of prices. -/
theorem sound_of_reached (memoised : setting.pricing = Setting.memoised)
    {memo : Memo (String × String) Nat} (h : setting.Reached memo) :
    memo.Sound (IsPrice setting) := by
  induction h with
  | empty room => exact Memo.sound_empty room
  | lookedUp key _ ih => exact ih.lookUp key
  | priced depth s t notes _ ih => exact (tracks_priceAt memoised depth s t (_, notes) ih).1
  | answered call notes _ ih => exact (tracks_memoised memoised _ call.visit (_, notes) ih).1

/-- If a course comes to its end, so does every comparison that follows it, in the same way. -/
theorem outcome_of_course (memoised : setting.pricing = Setting.memoised) {call : Call} {u : Unit}
    (ended : (within setting (setting.levelsFrom call.depth) call.visit).result = .ok u)
    {o : Outcome Change Fault Unit} (h : setting.Outcomes (fun σ => σ.answer call) o) :
    o = within setting (setting.levelsFrom call.depth) call.visit := by
  cases h with
  | remembering notes reached =>
    obtain ⟨-, -, above, -⟩ := tracks_memoised memoised (setting.levelsFrom call.depth) call.visit
      (_, notes) (sound_of_reached memoised reached)
    exact above.2 u ended
  | unremembering notebook =>
    obtain ⟨-, -, above, -⟩ := tracks_unremembered setting (fun _ => True)
      (setting.levelsFrom call.depth) call.visit notebook trivial
    exact above.2 u ended

/-- What a comparison reports before it ends, in whatever way, is the beginning of what a course
with enough levels reports. -/
theorem prefix_of_outcome (memoised : setting.pricing = Setting.memoised) {call : Call}
    {o : Outcome Change Fault Unit} (h : setting.Outcomes (fun σ => σ.answer call) o) :
    ∃ levels, o.emitted <+: (within setting levels call.visit).emitted := by
  cases h with
  | remembering notes reached =>
    obtain ⟨-, -, -, enough, below⟩ := tracks_memoised memoised (setting.levelsFrom call.depth)
      call.visit (_, notes) (sound_of_reached memoised reached)
    exact ⟨enough, (below enough (Nat.le_refl _)).1⟩
  | unremembering notebook =>
    obtain ⟨-, -, -, enough, below⟩ := tracks_unremembered setting (fun _ => True)
      (setting.levelsFrom call.depth) call.visit notebook trivial
    exact ⟨setting.levelsFrom call.depth, (below enough (Nat.le_refl _)).1⟩

/-- A square of prices that was found holds the prices of courses with enough levels. -/
theorem prices_of_squareAt (memoised : setting.pricing = Setting.memoised) {depth : Int}
    {olds news : List Schema} {costs : List (List Nat)} {o : Outcome Change Fault (List (List Nat))}
    (h : setting.Outcomes (fun σ => σ.squareAt depth olds news) o)
    (found : o.result = .ok costs) :
    ∃ levels, setting.levelsFrom depth ≤ levels ∧
      (prices (price setting levels) (olds, news)).result = .ok costs := by
  cases h with
  | remembering notes reached =>
    have tracked : Tracks (HoldsPrices setting) (IsTooDeep setting.limit)
        (setting.levelsFrom depth) (setting.squareAt depth olds news) fun n =>
          prices (price setting n) (olds, news) :=
      Tracks.collect fun s _ => Tracks.collect fun t _ => tracks_priceAt memoised depth s t
    obtain ⟨-, -, -, enough, below⟩ := tracked (_, notes) (sound_of_reached memoised reached)
    have later := below (max (setting.levelsFrom depth) enough) (Nat.le_max_right _ _)
    have same := later.2 costs found
    exact ⟨_, Nat.le_max_left _ _, (congrArg Outcome.result same).trans found⟩
  | unremembering notebook =>
    have tracked : Tracks (fun _ => True) (IsTooDeep setting.limit) 0
        (setting.unremembered.squareAt depth olds news) fun _ =>
          prices (price setting (setting.levelsFrom depth)) (olds, news) :=
      Tracks.collect fun s _ => Tracks.collect fun t _ =>
        (tracks_unremembered setting (fun _ => True) (setting.levelsFrom depth)
          ⟨"", s, t, false⟩).tally
    obtain ⟨-, -, -, enough, below⟩ := tracked notebook trivial
    have same := (below enough (Nat.le_refl _)).2 costs found
    exact ⟨_, Nat.le_refl _, (congrArg Outcome.result same).trans found⟩

/-! ## The changes of kinds at the path of a pair -/

variable {levels : Nat} {v : Visit} {u : Unit}

/-- A course that comes to its end shows the kinds of its pair at the path of the pair, unless the
pair is aligned, and nothing else there is of kinds. -/
theorem kinds_of_within (memoised : setting.pricing = Setting.memoised)
    (ended : (within setting levels v).result = .ok u) :
    (within setting levels v).emitted.filter (Change.isOfKindsAt v.path) =
      if v.aligned then [] else kindChanges setting v := by
  obtain ⟨-, -, above, -⟩ := tracks_memoised memoised levels v (.empty 1, [])
    (Memo.sound_empty (Nat.le_refl 1))
  have same := above.2 u ended
  have shown := Comparing.shows_kinds memoised levels v (.empty 1, []) u (by rw [same, ended])
  rw [same] at shown
  exact shown

/-- An aligned pair comes to its end only if the pair alone does. -/
theorem ended_alone (ended : (within setting levels { v with aligned := true }).result = .ok u) :
    (within setting levels { v with aligned := false }).result = .ok () := by
  cases levels with
  | zero => exact nomatch ended
  | succ levels =>
    obtain ⟨costs, priced⟩ := prices_of_within_eq_ok ended
    have alone := within_of_prices (v := { v with aligned := false }) priced
    have paired := within_of_prices priced
    have later : jobs setting { v with aligned := true } costs =
        (branchVisits setting v costs).map .go ++ (laterTasks setting v).map (Job.ofTask v.path) :=
      rfl
    rw [later, Outcome.each_append] at paired
    rw [jobs_alone, Outcome.each_append, Outcome.each_append, each_reports] at alone
    rw [paired] at ended
    obtain ⟨⟨⟩, visited, tasked⟩ := Outcome.andThen_eq_ok ended
    rw [alone, Outcome.andThen_ok visited, Outcome.andThen_ok rfl]
    exact tasked

/-- The course of an aligned pair is that of the pair alone without the changes of its kinds at its
path. -/
theorem emitted_aligned (memoised : setting.pricing = Setting.memoised)
    (ended : (within setting levels { v with aligned := false }).result = .ok u) :
    within setting levels { v with aligned := true } =
      ⟨(within setting levels { v with aligned := false }).emitted.filter fun c =>
        !c.isOfKindsAt v.path, .ok ()⟩ := by
  obtain ⟨before, after, alone, aligned⟩ := within_aligned ended
  have alone_kinds := kinds_of_within memoised ended
  have aligned_kinds := kinds_of_within (v := { v with aligned := true }) memoised
    (by rw [aligned])
  rw [aligned] at aligned_kinds ⊢
  rw [alone] at alone_kinds ⊢
  have others : before.filter (Change.isOfKindsAt v.path) = [] ∧
      after.filter (Change.isOfKindsAt v.path) = [] :=
    List.append_eq_nil_iff.mp ((List.filter_append _ _).symm.trans aligned_kinds)
  have own :
      (kindChanges setting v).filter (Change.isOfKindsAt v.path) = kindChanges setting v := by
    rw [List.filter_append, List.filter_append, others.1, others.2, List.nil_append,
      List.append_nil] at alone_kinds
    exact alone_kinds
  have kept {changes : List Change} (none : changes.filter (Change.isOfKindsAt v.path) = []) :
      changes.filter (fun c => !c.isOfKindsAt v.path) = changes :=
    List.filter_eq_self.mpr fun c hc => by simp [List.filter_eq_nil_iff.mp none c hc]
  have dropped : (kindChanges setting v).filter (fun c => !c.isOfKindsAt v.path) = [] :=
    List.filter_eq_nil_iff.mpr fun c hc => by simp [List.filter_eq_self.mp own c hc]
  rw [List.filter_append, List.filter_append, kept others.1, kept others.2, dropped,
    List.append_nil]

/-- A pair comes to its end wherever it stands, aligned or alone, if its trial does. -/
theorem ended_trial {place : String} {s t : Schema} {aligned : Bool}
    (ended : (within setting levels ⟨place, s, t, aligned⟩).result = .ok u) :
    (within setting levels ⟨"", s, t, false⟩).result = .ok () := by
  have alone : (within setting levels ⟨place, s, t, false⟩).result = .ok () := by
    cases aligned with
    | false => exact ended
    | true => exact ended_alone (v := ⟨place, s, t, false⟩) ended
  have there : visitUnder place ⟨"", s, t, false⟩ = ⟨place, s, t, false⟩ := by simp [visitUnder]
  rw [← there] at alone
  exact (within_under setting place levels ⟨"", s, t, false⟩).2.mpr alone

theorem isOfKindsAt_under (base path : String) (c : Change) :
    (changeUnder base c).isOfKindsAt (base ++ path) = c.isOfKindsAt path := by
  unfold Change.isOfKindsAt changeUnder
  rw [decide_eq_decide.mpr (String.append_right_inj base)]

/-- A pair alone at a path reports what its trial does, behind that path. -/
theorem within_at {s t : Schema} (path : String)
    (ended : (within setting levels ⟨"", s, t, false⟩).result = .ok u) :
    within setting levels ⟨path, s, t, false⟩ =
      ⟨(within setting levels ⟨"", s, t, false⟩).emitted.map (changeUnder path), .ok ()⟩ := by
  obtain ⟨moved, ends⟩ := within_under setting path levels ⟨"", s, t, false⟩
  have there : visitUnder path ⟨"", s, t, false⟩ = ⟨path, s, t, false⟩ := by simp [visitUnder]
  rw [there] at moved ends
  exact Outcome.ext moved (ends.mp ended)

/-- An aligned pair at a path reports what its trial does, behind that path and without the changes
of its own kinds. -/
theorem within_aligned_at (memoised : setting.pricing = Setting.memoised) {s t : Schema}
    (path : String) (ended : (within setting levels ⟨"", s, t, false⟩).result = .ok u) :
    within setting levels ⟨path, s, t, true⟩ =
      ⟨((within setting levels ⟨"", s, t, false⟩).emitted.filter fun c =>
        !c.isOfKindsAt "").map (changeUnder path), .ok ()⟩ := by
  have alone := within_at path ended
  have aligned := emitted_aligned (v := ⟨path, s, t, false⟩) memoised (by rw [alone])
  rw [alone] at aligned
  refine aligned.trans (Outcome.ext ?_ rfl)
  show List.filter _ (List.map _ _) = _
  rw [List.filter_map]
  refine congrArg _ (List.filter_congr fun c _ => ?_)
  have here := isOfKindsAt_under path "" c
  rw [String.append_empty] at here
  exact congrArg (!·) here

end Course

/-! ## How many changes of kinds there are -/

/-- The kinds that just one of two types admits. -/
def Typing.difference (a b : Typing) : Finset Kind :=
  symmDiff a.admitted.toFinset b.admitted.toFinset

theorem Typing.card_difference (a b : Typing) :
    (a.difference b).card =
      (Kind.all.filter fun k => a.admitted.contains k && !b.admitted.contains k).length +
        (Kind.all.filter fun k => b.admitted.contains k && !a.admitted.contains k).length := by
  have once (p : Kind → Bool) : (Kind.all.filter p).Nodup := (by decide : Kind.all.Nodup).filter p
  have one (a b : Typing) : a.admitted.toFinset \ b.admitted.toFinset =
      (Kind.all.filter fun k => a.admitted.contains k && !b.admitted.contains k).toFinset := by
    ext k
    simp [Kind.mem_all]
  rw [← List.toFinset_card_of_nodup (once _), ← List.toFinset_card_of_nodup (once _), ← one, ← one]
  exact Finset.card_union_of_disjoint disjoint_sdiff_sdiff

theorem Course.kindCount_eq (setting : Setting) (s t : Schema) :
    kindCount setting s t = ((setting.old.follow s).schema.typing.difference
      (setting.new.follow t).schema.typing).card := by
  rw [Typing.card_difference, ← Comparing.filter_kindSet, ← Comparing.filter_kindSet]
  simp only [kindCount, Task.typeEdits, List.length_append, List.length_map]

namespace Setting

/-- The entry of a square of prices for a pair of branches is the price that the trial of the pair
comes to. -/
theorem entry_of_squareAt {setting : Setting} (memoised : setting.pricing = Setting.memoised)
    {depth : Int} {olds news : List Schema} {costs : List (List Nat)}
    {o : Outcome Change Fault (List (List Nat))}
    (h : setting.Outcomes (fun σ => σ.squareAt depth olds news) o) (found : o.result = .ok costs)
    {i j : Nat} {s t : Schema} (hs : olds[i]? = some s) (ht : news[j]? = some t) {c : Nat}
    (cost : (Course.price setting (setting.levelsFrom depth) s t).result = .ok c) :
    (costs[i]?.bind fun row => row[j]?) = some c := by
  obtain ⟨levels, deep, priced⟩ := Course.prices_of_squareAt memoised h found
  obtain ⟨row, hrow, entries⟩ := Course.getElem?_forall₂ (Course.prices_eq_ok priced) hs
  obtain ⟨c', entry, cost'⟩ := Course.getElem?_forall₂ entries ht
  -- The square may have been found with more levels, which make no difference to a price.
  rw [(Course.price_precedes setting deep s t).2 c cost] at cost'
  have same : c = c' := Except.ok.inj (cost.symm.trans cost')
  rw [hrow, same]
  exact entry

/-- If a pair comes to its end without memory at a depth, wherever it stands, then every visit to it
at that depth does, whatever the memo holds: the pair alone reports what its trial reports, behind
the path where it stands, and the aligned pair the same without the changes of its own kinds. So an
aligned pair reports as many changes as the square of prices says, less the number of kinds that
just one of the two schemas admits. -/
theorem aligned_exact (old new : Schema) (limit : DepthLimit) {depth : Int} {s t : Schema}
    {place : String} {aligned : Bool} {notebook : Notebook}
    (ended : ((ofRoots old new limit.value).unremembered.answer
      ⟨depth, ⟨place, s, t, aligned⟩⟩ notebook).1.Completes)
    {trial : Outcome Change Fault Unit}
    (tried : (ofRoots old new limit.value).Outcomes
      (fun σ => σ.answer ⟨depth, ⟨"", s, t, false⟩⟩) trial) (path : String) :
    (∀ alone, (ofRoots old new limit.value).Outcomes
        (fun σ => σ.answer ⟨depth, ⟨path, s, t, false⟩⟩) alone →
      alone = ⟨trial.emitted.map (Course.changeUnder path), .ok ()⟩) ∧
    ∀ paired, (ofRoots old new limit.value).Outcomes
        (fun σ => σ.answer ⟨depth, ⟨path, s, t, true⟩⟩) paired →
      paired = ⟨(trial.emitted.filter fun c => !c.isOfKindsAt "").map (Course.changeUnder path),
        .ok ()⟩ ∧
      ∀ (olds news : List Schema) (square : Outcome Change Fault (List (List Nat)))
          (costs : List (List Nat)), (ofRoots old new limit.value).Outcomes
            (fun σ => σ.squareAt depth olds news) square → square.result = .ok costs →
        ∀ i j : Nat, olds[i]? = some s → news[j]? = some t →
          (costs[i]?.bind fun row : List Nat => row[j]?) = some (paired.emitted.length +
            (((References.ofRoot old).follow s).schema.typing.difference
              ((References.ofRoot new).follow t).schema.typing).card) := by
  obtain ⟨u, ended⟩ := ended
  have course := Course.within_eq_unremembered ended
  have ended : (Course.within (ofRoots old new limit.value)
      ((ofRoots old new limit.value).levelsFrom depth) ⟨"", s, t, false⟩).result = .ok () :=
    Course.ended_trial (Eq.trans (congrArg Outcome.result course) ended)
  have there := Course.within_at path ended
  have paired_there := Course.within_aligned_at rfl path ended
  obtain rfl := Course.outcome_of_course rfl ended tried
  refine ⟨fun alone h => ?_, fun paired h => ⟨?_, ?_⟩⟩
  · rw [Course.outcome_of_course rfl (congrArg Outcome.result there) h, there]
  · rw [Course.outcome_of_course rfl (congrArg Outcome.result paired_there) h, paired_there]
  · intro olds news square costs squared found i j hs ht
    rw [Course.outcome_of_course rfl (congrArg Outcome.result paired_there) h]
    have cost : (Course.price (ofRoots old new limit.value)
        ((ofRoots old new limit.value).levelsFrom depth) s t).result = .ok _ :=
      Outcome.tally_of_ok ended
    rw [entry_of_squareAt rfl squared found hs ht cost, ← Course.length_aligned cost path,
      Course.length_kindChanges, Course.kindCount_eq]
    rfl

/-- A root that defines an object. -/
def objectDefined : Schema :=
  { Schema.everything with
    definitions := [("A", { Schema.everything with
      kinds := some [.object], properties := [("x", .everything)] })] }

/-- A reference to that object, or a list of two kinds. -/
def objectOrScalars : Schema :=
  { Schema.everything with
    anyOf := some [{ Schema.everything with reference := some "#/definitions/A" },
      { Schema.everything with
        kinds := some [.string, .null], text := { StringRules.none with minLength := some 2 } }] }

/-- A text, or an object with a property that has to be there. -/
def textOrObject : Schema :=
  { Schema.everything with
    anyOf := some [{ Schema.everything with kinds := some [.string] },
      { Schema.everything with kinds := some [.object], required := ["x"] }] }

/-- The pair has branches of its own, one of which refers to a definition and one of which is split
up. Aligned behind a path, it reports the two of its seven changes that are not of its five
kinds. -/
theorem aligned_exact_nested :
    ((ofRoots objectDefined .everything 4).unremembered.answer
        ⟨1, ⟨"", objectOrScalars, textOrObject, false⟩⟩ (.empty 1, [])).1.Completes ∧
      (ofRoots objectDefined .everything 4).Outcomes
        (fun σ => σ.answer ⟨1, ⟨"", objectOrScalars, textOrObject, false⟩⟩)
        ((ofRoots objectDefined .everything 4).answer
          ⟨1, ⟨"", objectOrScalars, textOrObject, false⟩⟩ (.empty 1, [])).1 ∧
      ((ofRoots objectDefined .everything 4).answer
          ⟨1, ⟨".a", objectOrScalars, textOrObject, true⟩⟩ (.empty 1, [])).1.result = .ok () ∧
      ((ofRoots objectDefined .everything 4).answer
          ⟨1, ⟨".a", objectOrScalars, textOrObject, true⟩⟩ (.empty 1, [])).1.emitted.map
            Change.path = [".a.<anyOf:1>", ".a.<anyOf:1>"] ∧
      ((ofRoots objectDefined .everything 4).squareAt 1 [objectOrScalars] [textOrObject]
        (.empty 1, [])).1.result = .ok [[7]] ∧
      (((References.ofRoot objectDefined).follow objectOrScalars).schema.typing.difference
        ((References.ofRoot .everything).follow textOrObject).schema.typing).card = 5 := by
  have ended : ((ofRoots objectDefined .everything 4).unremembered.answer
      ⟨1, ⟨"", objectOrScalars, textOrObject, false⟩⟩ (.empty 1, [])).1.Completes :=
    ⟨(), ok_of_toOption (by decide +kernel)⟩
  have fresh {α : Type} (session : Setting → Comparing α) :
      (ofRoots objectDefined .everything 4).Outcomes session
        (session (ofRoots objectDefined .everything 4) (.empty 1, [])).1 :=
    .remembering [] (.empty (Nat.le_refl 1))
  have tried := fresh fun σ => σ.answer ⟨1, ⟨"", objectOrScalars, textOrObject, false⟩⟩
  obtain ⟨-, aligned⟩ := aligned_exact objectDefined .everything ⟨4, by decide⟩ ended tried ".a"
  obtain ⟨shown, counted⟩ :=
    aligned _ (fresh fun σ => σ.answer ⟨1, ⟨".a", objectOrScalars, textOrObject, true⟩⟩)
  have paths : ((((ofRoots objectDefined .everything 4).answer
      ⟨1, ⟨"", objectOrScalars, textOrObject, false⟩⟩ (.empty 1, [])).1.emitted.filter
        fun c => !c.isOfKindsAt "").map (Course.changeUnder ".a")).map Change.path =
      [".a.<anyOf:1>", ".a.<anyOf:1>"] := by decide +kernel
  have priced : ((ofRoots objectDefined .everything 4).squareAt 1 [objectOrScalars] [textOrObject]
      (.empty 1, [])).1.result = .ok [[7]] := ok_of_toOption (by decide +kernel)
  have entry := counted _ _ _ _ (fresh fun σ => σ.squareAt 1 [objectOrScalars] [textOrObject])
    priced 0 0 rfl rfl
  have two := congrArg List.length paths
  rw [List.length_map] at two
  rw [shown] at entry ⊢
  simp only [List.getElem?_cons_zero, Option.bind_some, Option.some.injEq, two] at entry
  -- Without this step the comparison would be run once more.
  dsimp only
  have five := (Nat.sub_eq_of_eq_add' entry).symm
  exact ⟨ended, tried, rfl, paths, priced, five⟩

end Setting

end SchemaDrift
