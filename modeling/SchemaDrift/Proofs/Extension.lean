import SchemaDrift.Proofs.Reflexivity

/-!
# Raising the depth limit

A comparison with a higher limit takes the same steps, and its memo goes through the same states,
until the one with the lower limit runs out of levels. Nothing catches that fault, so what was
reported by then is all that the lower limit shows.

* `Session.Extends` says that one session goes on where another one stops, and
  `Session.Extends.bind` and its companions put such statements together.
* `Comparing.extends_within`: more levels only extend a comparison, whatever its memo holds.
* `Comparison.deeper_extends` is the statement about documents.
-/

namespace SchemaDrift

/-! ## Sessions that go further -/

namespace Session

variable {σ τ ω ε α β κ : Type}

/-- The second session goes at least as far as the first one, from every state: it emits what the
first one emits and maybe more, and if the first one comes to its end, the two are the same up to
the state that they leave behind. -/
def Extends (m m' : Session σ ω ε α) : Prop :=
  ∀ s, (m s).1.emitted <+: (m' s).1.emitted ∧ ∀ x, (m s).1.result = .ok x → m' s = m s

namespace Extends

theorem refl (m : Session σ ω ε α) : Extends m m := fun _ => ⟨List.prefix_refl _, fun _ _ => rfl⟩

/-- Every session goes at least as far as a failure at once. -/
theorem fail (e : ε) (m : Session σ ω ε α) : Extends (fail e) m :=
  fun _ => ⟨List.nil_prefix, fun _ h => nomatch h⟩

theorem bind {m m' : Session σ ω ε α} {f f' : α → Session σ ω ε β} (hm : Extends m m')
    (hf : ∀ x, Extends (f x) (f' x)) : Extends (bind m f) (bind m' f') := by
  intro s
  obtain ⟨first, same⟩ := hm s
  rcases run : m s with ⟨⟨items, e | x⟩, t⟩
  · -- The first session has stopped; the second one may go on with whatever it likes.
    have stopped : Session.bind m f s = (⟨items, .error e⟩, t) := by simp [Session.bind, run]
    rw [stopped]
    refine ⟨?_, fun _ h => by cases h⟩
    rw [run] at first
    unfold Session.bind
    rcases run' : m' s with ⟨⟨items', e' | x'⟩, t'⟩
    · rw [run'] at first
      exact first
    · rw [run'] at first
      exact first.trans (List.prefix_append _ _)
  · have run' : m' s = (⟨items, .ok x⟩, t) := (same x (by rw [run])).trans run
    obtain ⟨rest, same⟩ := hf x t
    unfold Session.bind
    rw [run, run']
    refine ⟨(List.prefix_append_right_inj items).mpr rest, fun y ended => ?_⟩
    dsimp only
    rw [same y ended]

theorem each {f f' : α → Session σ ω ε Unit} (h : ∀ x, Extends (f x) (f' x)) (xs : List α) :
    Extends (each f xs) (each f' xs) := by
  induction xs with
  | nil => exact refl _
  | cons x xs ih => exact (h x).bind fun _ => ih

theorem collect {f f' : α → Session σ ω ε β} (h : ∀ x, Extends (f x) (f' x)) (xs : List α) :
    Extends (collect f xs) (collect f' xs) := by
  induction xs with
  | nil => exact refl _
  | cons x xs ih => exact (h x).bind fun _ => ih.bind fun _ => refl _

theorem tally {m m' : Session σ ω ε Unit} (h : Extends m m') : Extends (tally m) (tally m') := by
  intro s
  obtain ⟨-, same⟩ := h s
  unfold Session.tally
  rcases run : m s with ⟨⟨items, e | x⟩, t⟩
  · exact ⟨List.nil_prefix, fun _ h => nomatch h⟩
  · rw [same x (by rw [run]), run]
    exact ⟨List.prefix_refl _, fun _ _ => rfl⟩

section

variable [BEq κ] {refusal : ε} {key : κ} {compute compute' : Session (Memo κ α × τ) ω ε α}

/-- After a fault nothing is stored. -/
theorem remember (h : Extends compute compute') :
    Extends (Memo.remember refusal key compute) (Memo.remember refusal key compute') := by
  intro s
  obtain ⟨first, same⟩ := h s
  unfold Memo.remember
  rcases run : compute s with ⟨⟨items, e | v⟩, m, t⟩
  · refine ⟨?_, fun _ h => nomatch h⟩
    rw [run] at first
    rcases run' : compute' s with ⟨⟨items', e' | v'⟩, m', t'⟩
    · rw [run'] at first
      exact first
    · rw [run'] at first
      dsimp only
      split <;> exact first
  · rw [same v (by rw [run]), run]
    exact ⟨List.prefix_refl _, fun _ _ => rfl⟩

/-- Whether a value is found does not depend on how it would be computed. -/
theorem fetch (h : Extends compute compute') :
    Extends (Memo.fetch refusal key compute) (Memo.fetch refusal key compute') := by
  rintro ⟨m, t⟩
  rcases look : m.lookUp key with ⟨v | v, m'⟩
  · have miss (c : Session (Memo κ α × τ) ω ε α) :
        Memo.fetch refusal key c (m, t) = Memo.remember refusal key c (m', t) := by
      simp [Memo.fetch, look]
    rw [miss, miss]
    exact h.remember (m', t)
  · have hit (c : Session (Memo κ α × τ) ω ε α) :
        Memo.fetch refusal key c (m, t) = (⟨[], .ok v⟩, (m', t)) := by
      simp [Memo.fetch, look]
    rw [hit, hit]
    exact ⟨List.prefix_refl _, fun _ _ => rfl⟩

end

end Extends

end Session

/-! ## Comparisons with more levels -/

namespace Comparing

open Session

section

variable {descend descend' : Visit → Comparing Unit}
  {price price' : Schema → Schema → Comparing Nat}

theorem extends_alignBranches (setting : Setting) (hd : ∀ v, Extends (descend v) (descend' v))
    (hp : ∀ s t, Extends (price s t) (price' s t)) (path : String) (old new : Schema)
    (split : Bool) :
    Extends (alignBranches setting descend price path old new split)
      (alignBranches setting descend' price' path old new split) := by
  unfold alignBranches
  rcases old.anyOf with _ | olds
  · exact .refl _
  rcases new.anyOf with _ | news
  · exact .refl _
  refine (Extends.collect (fun s => Extends.collect (hp s) _) _).bind fun costs => ?_
  exact (Extends.refl _).bind fun _ => Extends.each hd _

theorem extends_perform (hd : ∀ v, Extends (descend v) (descend' v)) (path : String)
    (task : Task) : Extends (perform descend path task) (perform descend' path task) := by
  cases task with
  | report edit => exact .refl _
  | descend step s t => exact hd _

/-- A visit goes as far as the visits below it and the prices let it. -/
theorem extends_visit (setting : Setting) (hd : ∀ v, Extends (descend v) (descend' v))
    (hp : ∀ s t, Extends (price s t) (price' s t)) (v : Visit) :
    Extends (visit setting descend price v) (visit setting descend' price' v) := by
  refine (Extends.refl _).bind fun old => (Extends.refl _).bind fun new => ?_
  have body := (extends_alignBranches setting hd hp v.path old.split new.split
    new.split?.isSome).bind fun _ => Extends.each (extends_perform hd v.path)
      (tasks v.aligned (old.split?.isSome || new.split?.isSome) old.split new.split)
  show Extends (if (old.split?.isSome || new.split?.isSome) = true then _ else _)
    (if (old.split?.isSome || new.split?.isSome) = true then _ else _)
  split
  · exact (Extends.refl _).bind fun _ => body
  · exact body

end

/-- A comparison with more levels, and with a limit that allows for them, goes at least as far. -/
theorem extends_within {setting : Setting} (memoised : setting.pricing = Setting.memoised)
    (limit : Nat) {levels more : Nat} (h : levels ≤ more) (v : Visit) :
    Extends (compareWithin setting levels v) (compareWithin { setting with limit } more v) := by
  induction levels generalizing more v with
  | zero => exact .fail _ _
  | succ levels ih =>
    obtain ⟨more, rfl⟩ : ∃ n, more = n + 1 := ⟨more - 1, by omega⟩
    have below : levels ≤ more := Nat.le_of_succ_le_succ h
    -- Trials look into the same memo, and their keys do not depend on the levels.
    have priced (s t : Schema) :
        Extends
          (Setting.memoised (fun s t => tally (compareWithin setting levels ⟨"", s, t, false⟩)) s t)
          (Setting.memoised
            (fun s t => tally (compareWithin { setting with limit } more ⟨"", s, t, false⟩)) s t) :=
      (ih below ⟨"", s, t, false⟩).tally.fetch
    rw [← memoised] at priced
    exact extends_visit setting (fun v => ih below v) priced v

end Comparing

namespace Comparison

def rootSession (limit : DepthLimit) (old new : Schema) : Comparing Unit :=
  compareWithin (Setting.ofRoots old new limit.value)
    ((Setting.ofRoots old new limit.value).levelsFrom 0) (rootVisit old new)

/-- A comparison of two roots is without a fault if the visit to them comes to its end. -/
theorem fault_eq_none_iff {limit : DepthLimit} {memo : Memo (String × String) Nat}
    {old new : Schema} :
    (ofRoots limit memo old new).fault = none ↔
      (rootSession limit old new (memo, [])).1.result = .ok () := by
  obtain ⟨-, failed⟩ := ofRoots_eq old new limit memo
  unfold rootSession
  rcases ended : (compareWithin (Setting.ofRoots old new limit.value)
    ((Setting.ofRoots old new limit.value).levelsFrom 0) (rootVisit old new)
      (memo, [])).1.result with e | u
  · rw [(failed e).mpr ended]
    exact ⟨nofun, nofun⟩
  · refine ⟨fun _ => rfl, fun _ => Option.eq_none_iff_forall_ne_some.mpr fun e he => ?_⟩
    rw [(failed e).mp he] at ended
    exact nomatch ended

theorem reported_eq (limit : DepthLimit) (memo : Memo (String × String) Nat) (old new : Schema) :
    (ofRoots limit memo old new).reported = (rootSession limit old new (memo, [])).1.emitted :=
  (ofRoots_eq old new limit memo).1

theorem extends_ofRoots {limit deeper : DepthLimit} (h : limit.value ≤ deeper.value)
    (old new : Schema) :
    Session.Extends (rootSession limit old new) (rootSession deeper old new) := by
  have more : (Setting.ofRoots old new limit.value).levelsFrom 0 ≤
      (Setting.ofRoots old new deeper.value).levelsFrom 0 := by
    unfold Setting.levelsFrom Setting.ofRoots
    dsimp only
    omega
  exact Comparing.extends_within rfl deeper.value more (rootVisit old new)

/-- With a higher limit a comparison of two documents reports what it reports with the lower one,
in the same order, and maybe more. If it comes to its end with the lower limit, it comes to the
same end with the higher one. The capacity of the memo does not matter. -/
theorem deeper_extends {limit deeper : DepthLimit} (h : limit.value ≤ deeper.value)
    (capacity : Int) (old new : Json) :
    (ofDocuments limit capacity old new).reported <+:
        (ofDocuments deeper capacity old new).reported ∧
      ∀ changes, (ofDocuments limit capacity old new).changes = .ok changes →
        (ofDocuments deeper capacity old new).changes = .ok changes := by
  unfold ofDocuments
  split
  · exact ⟨List.prefix_refl _, fun _ h => h⟩
  · exact ⟨List.prefix_refl _, fun _ h => h⟩
  · exact ⟨List.prefix_refl _, fun _ h => h⟩
  · next s t memo _ _ _ =>
    obtain ⟨first, same⟩ := extends_ofRoots h s t (memo, [])
    refine ⟨by rw [reported_eq, reported_eq]; exact first, fun changes completed => ?_⟩
    simp only [changes_eq_ok_iff, fault_eq_none_iff, reported_eq] at completed ⊢
    rw [same () completed.1]
    exact completed

/-- A text whose property `next` is described in the same way again, without end. -/
def textRing : Json :=
  .obj [("$ref", .str "#/definitions/A"),
    ("definitions", .obj [("A", .obj [("type", .str "string"),
      ("properties", .obj [("next", .obj [("$ref", .str "#/definitions/A")])])])])]

/-- The same with `null` in place of the text. -/
def nullRing : Json :=
  .obj [("$ref", .str "#/definitions/A"),
    ("definitions", .obj [("A", .obj [("type", .str "null"),
      ("properties", .obj [("next", .obj [("$ref", .str "#/definitions/A")])])])])]

/-- Each level of a ring reports two changes before the next one is visited, and neither of the
limits is enough. -/
theorem deeper_extends_rings :
    1 ≤ 2 ∧
    (ofDocuments ⟨1, by decide⟩ 1 textRing nullRing).reported.length = 4 ∧
    (ofDocuments ⟨2, by decide⟩ 1 textRing nullRing).reported.length = 6 ∧
    (ofDocuments ⟨2, by decide⟩ 1 textRing nullRing).fault.isSome = true ∧
    (ofDocuments ⟨1, by decide⟩ 1 textRing nullRing).reported <+:
        (ofDocuments ⟨2, by decide⟩ 1 textRing nullRing).reported ∧
      ∀ changes, (ofDocuments ⟨1, by decide⟩ 1 textRing nullRing).changes = .ok changes →
        (ofDocuments ⟨2, by decide⟩ 1 textRing nullRing).changes = .ok changes :=
  ⟨by decide, by decide +kernel, by decide +kernel, by decide +kernel,
    deeper_extends (by decide) 1 textRing nullRing⟩

end Comparison

end SchemaDrift
