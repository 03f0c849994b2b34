import SchemaDrift.Comparison
import SchemaDrift.Proofs.Course
import SchemaDrift.Proofs.Memo
import SchemaDrift.Proofs.Schema.Fingerprint

/-!
# Remembered prices change nothing

A memo of prices is entered by the very trials it prices, loses entries at any time, and its keys
say nothing of the depth at which a pair was priced. It is sound all the same: every entry holds
the price that a trial finds if it is given enough levels, and trials that run out of levels store
nothing.

* `Course.IsPrice` is what a memo of prices may hold.
* `Course.tracks_memoised` says that a comparison with a sound memo tracks its course.
* `Setting.series_transparent` says that comparisons which share a memo come out as they do without
  one.
-/

namespace SchemaDrift

namespace Course

/-- A cost is the price of a key if every trial of a pair with that key finds it, given enough
levels. -/
def IsPrice (setting : Setting) (key : String × String) (cost : Nat) : Prop :=
  ∀ s t, key = (s.fingerprint, t.fingerprint) →
    ∃ enough, ∀ n, enough ≤ n → price setting n s t = .done cost

/-- A notebook whose memo holds prices only. -/
def HoldsPrices (setting : Setting) (notebook : Notebook) : Prop :=
  notebook.1.Sound (IsPrice setting)

theorem price_precedes (setting : Setting) {m n : Nat} (h : m ≤ n) (s t : Schema) :
    (price setting m s t).Precedes (price setting n s t) :=
  (precedes_of_le setting h _).tally

/-- What a trial finds from some level on is the price of its key. -/
theorem isPrice_of_found {setting : Setting} {s t : Schema} {items : List Change} {cost : Nat}
    (h : ∃ enough, ∀ n, enough ≤ n → price setting n s t = ⟨items, .ok cost⟩) :
    IsPrice setting (s.fingerprint, t.fingerprint) cost := by
  intro s' t' key
  obtain ⟨left, right⟩ := Prod.mk.inj key
  -- A key belongs to one pair of schemas only.
  obtain rfl := Schema.fingerprint_injective left
  obtain rfl := Schema.fingerprint_injective right
  obtain ⟨enough, found⟩ := h
  refine ⟨enough, fun n hn => ?_⟩
  have silent : (price setting n s t).emitted = [] := Outcome.tally_emitted _
  rw [found n hn] at silent ⊢
  rw [show items = [] from silent, Outcome.done]

/-- A price that is fetched from a memo of prices is as good as found by a trial. -/
theorem tracks_pricing {setting : Setting} {levels : Nat}
    (h : ∀ v, Session.Tracks (HoldsPrices setting) (IsTooDeep setting.limit) levels
      (compareWithin setting levels v) fun n => within setting n v) (s t : Schema) :
    Session.Tracks (HoldsPrices setting) (IsTooDeep setting.limit) levels
      (Setting.memoised
        (fun s t => Session.tally (compareWithin setting levels ⟨"", s, t, false⟩)) s t)
      fun n => price setting n s t :=
  Memo.tracks_fetch (h ⟨"", s, t, false⟩).tally (fun _ _ hmn => price_precedes setting hmn s t)
    (fun _ _ found => isPrice_of_found found) fun _ known => known s t rfl

/-- A comparison with a memo of prices tracks its course. -/
theorem tracks_memoised {setting : Setting} (h : setting.pricing = Setting.memoised) (levels : Nat)
    (v : Visit) :
    Session.Tracks (HoldsPrices setting) (IsTooDeep setting.limit) levels
      (compareWithin setting levels v) fun n => within setting n v := by
  induction levels generalizing v with
  | zero =>
    intro notebook sound
    exact ⟨sound, fun e he => ⟨v.path, (Except.error.inj he).symm⟩, .refl _, 0,
      fun n _ => .fail _ _⟩
  | succ levels ih =>
    -- Trials run one level below and may find prices in the memo, or drop some from it.
    have priced := tracks_pricing ih
    rw [← h] at priced
    exact (tracks_visit setting ih priced v).shift

end Course

/-! ## Series of comparisons -/

/-- A comparison that is asked for: a visit and the depth at which it starts. -/
structure Call where
  depth : Int
  visit : Visit

namespace Setting

def answer (setting : Setting) (call : Call) : Comparing Unit :=
  compareWithin setting (setting.levelsFrom call.depth) call.visit

/-- The outcomes of calls that are answered one after the other. Each of them finds the notebook
as the one before it left it, also if that one failed. -/
def series (setting : Setting) : List Call → Notebook → List (Outcome Change Fault Unit)
  | [], _ => []
  | call :: calls, notebook =>
    (setting.answer call notebook).1 :: series setting calls (setting.answer call notebook).2

theorem series_tracks {setting : Setting} (h : setting.pricing = memoised) (calls : List Call)
    {notebook : Notebook} (sound : Course.HoldsPrices setting notebook) :
    List.Forall₂ (fun call outcome =>
      (∀ e, outcome.result = .error e → Course.IsTooDeep setting.limit e) ∧
        (Course.within setting (setting.levelsFrom call.depth) call.visit).Precedes outcome)
      calls (setting.series calls notebook) := by
  induction calls generalizing notebook with
  | nil => exact .nil
  | cons call calls ih =>
    obtain ⟨kept, faults, above, -⟩ :=
      Course.tracks_memoised h (setting.levelsFrom call.depth) call.visit notebook sound
    exact .cons ⟨faults, above⟩ (ih kept)

/-- An outcome is as good as without a memo: it is that outcome if that one came to its end, and a
fault is at most that of going too deep. -/
def AsUnremembered (setting : Setting) (call : Call) (outcome : Outcome Change Fault Unit) : Prop :=
  (∀ notebook, (setting.unremembered.answer call notebook).1.Completes →
    outcome = (setting.unremembered.answer call notebook).1) ∧
  ∀ e, outcome.result = .error e → Course.IsTooDeep setting.limit e

/-- However many comparisons share a memo, whatever it holds by then and whatever it has lost, each
one that comes to its end without a memo comes to the same end with it and reports the same
changes. The memo adds no fault of its own. -/
theorem series_transparent (old new : Schema) (limit : DepthLimit) {capacity : Nat}
    (room : 1 ≤ capacity) (calls : List Call) :
    List.Forall₂ (ofRoots old new limit.value).AsUnremembered calls
      ((ofRoots old new limit.value).series calls (.empty capacity, [])) := by
  have sound : Course.HoldsPrices (ofRoots old new limit.value) (.empty capacity, []) :=
    Memo.sound_empty room
  have tracked := series_tracks rfl calls sound
  refine tracked.imp fun call outcome h => ⟨fun notebook completes => ?_, h.1⟩
  obtain ⟨u, ended⟩ := completes
  have course : Course.within (ofRoots old new limit.value)
      ((ofRoots old new limit.value).levelsFrom call.depth) call.visit =
        ((ofRoots old new limit.value).unremembered.answer call notebook).1 :=
    Course.within_eq_unremembered ended
  rw [← course] at ended ⊢
  exact h.2.2 u ended

/-- A pair with branches whose prices do not fit into a memo with one place. -/
def crowded : Visit :=
  ⟨"", { Schema.everything with kinds := some [.string, .null] },
    { Schema.everything with kinds := some [.null, .integer] }, false⟩

/-- Between two comparisons of the same pair stands one that fails at its first price. -/
theorem series_transparent_crowded :
    1 ≤ 1 ∧
    ((ofRoots .everything .everything 1).unremembered.answer ⟨0, crowded⟩
      (.empty 1, [])).1.Completes ∧
    List.Forall₂ (ofRoots .everything .everything 1).AsUnremembered
      [⟨0, crowded⟩, ⟨1, crowded⟩, ⟨0, crowded⟩]
      ((ofRoots .everything .everything 1).series [⟨0, crowded⟩, ⟨1, crowded⟩, ⟨0, crowded⟩]
        (.empty 1, [])) :=
  ⟨by decide, ⟨(), by cbv⟩,
    series_transparent .everything .everything ⟨1, by decide⟩ (by decide) _⟩

end Setting

end SchemaDrift
