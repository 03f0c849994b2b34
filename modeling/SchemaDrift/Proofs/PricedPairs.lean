import SchemaDrift.Proofs.Branchless
import SchemaDrift.Proofs.DepthFaults
import SchemaDrift.Proofs.Extension
import SchemaDrift.Proofs.Schema.Keys

/-!
# The pairs that are priced

A comparison of two documents visits parts of them, what they say of single kinds and the schemas of
constants. Branches are never schemas of constants, so the pairs that it prices are pairs of schemas
that were read, of what these say of a kind, and of the schema that lists of branches are filled up
with.

* `Schema.Visitable` are the schemas that a comparison may visit; `Course.Descent.visitable` says
  that one step leads from such a pair to such a pair.
* `Course.ends_known` says that a comparison remembers prices only under the keys of pairs that may
  be priced.
* `Comparison.remembered_pairs` is the statement about documents.
-/

namespace SchemaDrift

/-! ## Keys in a memo -/

namespace Memo

open Session

variable {κ ν τ ω ε : Type} [BEq κ] [LawfulBEq κ]

/-- All keys in a memo are known. -/
def Knows (known : κ → Prop) (m : Memo κ ν) : Prop := ∀ e ∈ m.entries, known e.1

variable {known : κ → Prop} {refusal : ε} {key : κ} {compute : Session (Memo κ ν × τ) ω ε ν}

omit [LawfulBEq κ] in
theorem ends_remember (hkey : known key)
    (hc : Ends (fun s => s.1.Knows known) (fun _ => True) (fun _ => True) compute) :
    Ends (fun s => s.1.Knows known) (fun _ => True) (fun _ => True)
      (remember refusal key compute) := by
  intro s hs
  refine ⟨?_, fun _ _ => trivial, fun _ _ => trivial⟩
  have kept := (hc s hs).1
  rcases run : compute s with ⟨⟨items, e | v⟩, m, t⟩
  · have same : remember refusal key compute s = compute s := by simp [remember, run]
    rw [same]
    exact kept
  · rw [run] at kept
    rcases stored : m.store key v with _ | m'
    · have same : (remember refusal key compute s).2 = (m, t) := by simp [remember, run, stored]
      rw [same]
      exact kept
    · have same : (remember refusal key compute s).2 = (m', t) := by simp [remember, run, stored]
      rw [same]
      intro e he
      rcases mem_of_mem_store stored he with rfl | he
      · exact hkey
      · exact kept e he

/-- Fetching the value of a known key brings in no other key than its computation does. -/
theorem ends_fetch (hkey : known key)
    (hc : Ends (fun s => s.1.Knows known) (fun _ => True) (fun _ => True) compute) :
    Ends (fun s => s.1.Knows known) (fun _ => True) (fun _ => True)
      (fetch refusal key compute) := by
  rintro ⟨m, t⟩ hm
  have looked : (m.lookUp key).2.Knows known := fun e he => hm e (mem_of_mem_lookUp he)
  rcases look : m.lookUp key with ⟨v | v, m'⟩
  · have miss : fetch refusal key compute (m, t) = remember refusal key compute (m', t) := by
      simp [fetch, look]
    rw [look] at looked
    rw [miss]
    exact ends_remember hkey hc (m', t) looked
  · have hit : (fetch refusal key compute (m, t)).2 = (m', t) := by simp [fetch, look]
    rw [look] at looked
    refine ⟨?_, fun _ _ => trivial, fun _ _ => trivial⟩
    rw [hit]
    exact looked

end Memo

/-! ## Schemas that are visited -/

namespace Schema

variable {s u : Schema} {us : List Schema}

/-- Whatever stands in a schema that may be priced may be priced. -/
theorem Priceable.child (h : Priceable s) (hu : Child u s) : Priceable u := by
  induction h with
  | read readAs part => exact .read readAs ((Part.inside (.whole u) hu).trans part)
  | projected _ _ ih => exact ih (child_project hu)
  | filling =>
    obtain rfl := eq_everything_of_child_nothing hu
    exact .read (show ofDocument (.bool true) = .ok everything from rfl) (.whole everything)

/-- The schemas that a comparison of documents may visit. -/
def Visitable (s : Schema) : Prop := Priceable s ∨ ∃ x, s = ofConst x

namespace Visitable

theorem child (h : Visitable s) (hu : Child u s) : Visitable u := by
  rcases h with h | ⟨x, rfl⟩
  · exact .inl (h.child hu)
  · obtain ⟨_, _, y, -, -, rfl⟩ := child_ofConst hu
    exact .inr ⟨y, rfl⟩

theorem throughout (h : Visitable s) : s.Throughout Visitable := by
  induction s using child_induction with
  | step s ih => exact throughout_iff.mpr ⟨h, fun u hu => ih u hu (h.child hu)⟩

theorem child_split (h : Visitable s) (hu : Child u s.split) : Visitable u := by
  rcases h with h | ⟨x, rfl⟩
  · rcases Schema.child_split hu with kept | ⟨k, rfl⟩
    · exact .inl (h.child kept)
    · exact .inl (h.projected k)
  · rw [(Undivided.ofConst x).split_eq] at hu
    exact child (.inr ⟨x, rfl⟩) hu

/-- The schema of a constant has no branches, so branches may be priced. -/
theorem branch (h : Visitable s) (hus : s.split.anyOf = some us) (hu : u ∈ us) : Priceable u := by
  rcases h with h | ⟨x, rfl⟩
  · rcases Schema.child_split (.branch hus hu) with kept | ⟨k, rfl⟩
    · exact h.child kept
    · exact h.projected k
  · rw [(Undivided.ofConst x).split_eq, (Undivided.ofConst x).anyOf] at hus
    exact nomatch hus

theorem filledUp (h : Visitable s) (hus : s.split.anyOf = some us) {length : Nat}
    (hu : u ∈ Comparing.fillUp length us) : Priceable u := by
  rcases List.mem_append.mp hu with hu | hu
  · exact h.branch hus hu
  · rw [List.eq_of_mem_replicate hu]
    exact .filling

theorem follow {root : Schema} (hroot : Priceable root) (h : Visitable s) :
    Visitable ((References.ofRoot root).follow s).schema :=
  (References.follow_throughout (throughout (.inl hroot)) h.throughout).here

theorem opened {root : Schema} (hroot : Priceable root) (h : Visitable s)
    (hu : Child u (Course.opened (.ofRoot root) s)) : Visitable u := by
  rcases child_unfoldConst hu with kept | ⟨x, -, added⟩
  · exact (follow hroot h).child_split kept
  · exact child (.inr ⟨x, rfl⟩) added

end Visitable

end Schema

/-! ## Comparisons -/

namespace Course

open Schema Session

variable {old new s t u w : Schema} {limit : Nat}

/-- The branches of a pair, filled up to a common length, may be priced. -/
theorem priceable_of_branches (limit : Nat) (hold : Priceable old) (hnew : Priceable new)
    {v : Visit} (hs : Visitable v.old) (ht : Visitable v.new) :
    (∀ u ∈ (branchesOf (.ofRoots old new limit) v).1, Priceable u) ∧
      ∀ w ∈ (branchesOf (.ofRoots old new limit) v).2, Priceable w := by
  unfold branchesOf branches
  split
  · next olds news hus hws =>
    exact ⟨fun u hu => (Visitable.follow hold hs).filledUp hus hu,
      fun w hw => (Visitable.follow hnew ht).filledUp hws hw⟩
  · exact ⟨nofun, nofun⟩

/-- A step leads from schemas that may be visited to such schemas. -/
theorem Descent.visitable {step : Step} (hold : Priceable old) (hnew : Priceable new)
    (hs : Visitable s) (ht : Visitable t) (h : Descent (.ofRoots old new limit) s t step u w) :
    Visitable u ∧ Visitable w := by
  have partners {j : Nat} (h : Partners (.ofRoots old new limit) s t j u w) :
      Visitable u ∧ Visitable w := by
    obtain ⟨olds, news, -, -, left, right⟩ := h
    exact ⟨.inl ((Visitable.follow hold hs).filledUp olds (List.mem_of_getElem? left)),
      .inl ((Visitable.follow hnew ht).filledUp news (List.mem_of_getElem? right))⟩
  cases h with
  | property left right =>
    exact ⟨hs.opened hold (.property (Fields.mem_of_lookup left)),
      ht.opened hnew (.property (Fields.mem_of_lookup right))⟩
  | position left right _ found found' =>
    exact ⟨hs.opened hold (Task.child_of_at? left found),
      ht.opened hnew (Task.child_of_at? right found')⟩
  | items left right => exact ⟨hs.opened hold (.every left), ht.opened hnew (.every right)⟩
  | additional left right =>
    exact ⟨hs.opened hold (.additional left), ht.opened hnew (.additional right)⟩
  | branch _ h => exact partners h
  | splitBranch _ h => exact partners h

theorem mem_of_branchVisits {setting : Setting} {v x : Visit} {costs : List (List Nat)}
    (h : x ∈ branchVisits setting v costs) :
    x.old ∈ (branchesOf setting v).1 ∧ x.new ∈ (branchesOf setting v).2 := by
  unfold branchVisits Comparing.branchVisits at h
  obtain ⟨⟨u, j⟩, hu, made⟩ := List.mem_filterMap.mp h
  obtain ⟨w, hw, rfl⟩ := Option.map_eq_some_iff.mp made
  exact ⟨(List.of_mem_zip hu).1, List.mem_of_getElem? hw⟩

/-- The key of a pair of schemas that may be priced. -/
def PriceableKey (key : String × String) : Prop :=
  ∃ u w, Priceable u ∧ Priceable w ∧ key = (u.fingerprint, w.fingerprint)

/-- A comparison remembers prices under the keys of priceable pairs only. The induction is on the
levels: trials run one level below. -/
theorem ends_known (hold : Priceable old) (hnew : Priceable new) (levels : Nat) (v : Visit)
    (hs : Visitable v.old) (ht : Visitable v.new) :
    Ends (fun s => s.1.Knows PriceableKey) (fun _ => True) (fun _ => True)
      (compareWithin (.ofRoots old new limit) levels v) := by
  induction levels generalizing v with
  | zero => exact .fail trivial
  | succ levels ih =>
    obtain ⟨left, right⟩ := priceable_of_branches limit hold hnew hs ht
    have price (u : Schema) (hu : u ∈ (branchesOf (.ofRoots old new limit) v).1) (w : Schema)
        (hw : w ∈ (branchesOf (.ofRoots old new limit) v).2) :
        Ends (fun s => s.1.Knows PriceableKey) (fun _ => True) (fun _ => True)
          (Setting.memoised (fun s t =>
            tally (compareWithin (.ofRoots old new limit) levels ⟨"", s, t, false⟩)) u w) := by
      have trial := ih ⟨"", u, w, false⟩ (.inl (left u hu)) (.inl (right w hw))
      exact Memo.ends_fetch ⟨u, w, left u hu, right w hw, rfl⟩ trial.tally
    have priced := Ends.collect fun u hu => Ends.collect (price u hu)
    refine ends_visit priced (fun costs _ x hx => ?_) fun step u w htask => ?_
    · obtain ⟨hu, hw⟩ := mem_of_branchVisits hx
      exact ih x (.inl (left _ hu)) (.inl (right _ hw))
    · obtain ⟨hu, hw⟩ := (descent_of_tasksOf htask).visitable hold hnew hs ht
      exact ih ⟨v.path ++ step.suffix, u, w, false⟩ hu hw

end Course

namespace Comparison

open Course

/-- Whatever a comparison of two documents remembers, whether it comes to its end or fails, it
remembers under the key of exactly one pair of schemas, and the pair is one that may be priced. -/
theorem remembered_pairs {old new : Json} {s t : Schema} (hs : Schema.ofDocument old = .ok s)
    (ht : Schema.ofDocument new = .ok t) (limit : DepthLimit) (capacity : Nat) :
    ∀ e ∈ (rootSession limit s t (.empty capacity, [])).2.1.entries,
      ∃! pair : Schema × Schema, (pair.1.Priceable ∧ pair.2.Priceable) ∧
        e.1 = (pair.1.fingerprint, pair.2.fingerprint) := by
  intro e he
  have left : s.Priceable := .read hs (.whole s)
  have right : t.Priceable := .read ht (.whole t)
  have known : (rootSession limit s t (.empty capacity, [])).2.1.Knows PriceableKey :=
    (ends_known left right _ (rootVisit s t) (.inl left) (.inl right) (.empty capacity, []) nofun).1
  obtain ⟨u, w, hu, hw, key⟩ := known e he
  refine ⟨(u, w), ⟨⟨hu, hw⟩, key⟩, fun pair ⟨_, other⟩ => ?_⟩
  obtain ⟨first, second⟩ := Prod.mk.inj (other.symm.trans key)
  exact Prod.ext (Schema.fingerprint_injective first) (Schema.fingerprint_injective second)

end Comparison

end SchemaDrift
