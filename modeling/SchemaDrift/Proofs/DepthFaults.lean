import SchemaDrift.Proofs.Descents
import SchemaDrift.Proofs.Endings
import SchemaDrift.Proofs.Reflexivity
import SchemaDrift.Proofs.Schema.Faults

/-!
# What the fault of depth names

A comparison that goes too deep names the path at which it stopped. On the way there it may have
gone down to pairs below and into trials of pairs of branches, and a trial starts from an empty
path. So what the fault names is the way behind the last trial; what lies in front of it is missing.

* `Course.Way` is a way from one pair to another one, by descents and by trials.
* `Course.ends_visit` says how a visit ends, given how the trials of its branches and the visits
  below it do.
* `Course.ends_compareWithin` says that a comparison that goes too deep has gone such a way, one
  move for each level.
* `Course.reported_behind` says which part of the way the fault names.
* `Comparison.tooDeep_exact` is the main statement.
-/

namespace SchemaDrift

namespace Course

variable {setting : Setting}

/-! ## Ways down -/

/-- The pairs of branches of a pair that are tried: any branch on the left with any one on the
right, where the shorter list has been filled up. The step is the one that would lead to them. -/
inductive Trial (setting : Setting) (s t : Schema) : Step → Schema → Schema → Prop where
  | branch {j : Nat} {u w : Schema} :
      (setting.new.follow t).schema.split?.isSome = false →
      u ∈ (branchesOf setting ⟨"", s, t, false⟩).1 →
      (branchesOf setting ⟨"", s, t, false⟩).2[j]? = some w → Trial setting s t (.branch j) u w
  | splitBranch {j : Nat} {u w : Schema} :
      (setting.new.follow t).schema.split?.isSome = true →
      u ∈ (branchesOf setting ⟨"", s, t, false⟩).1 →
      (branchesOf setting ⟨"", s, t, false⟩).2[j]? = some w → Trial setting s t .splitBranch u w

/-- One move on a way: the link that it adds, and whether it goes into a trial. -/
structure Move where
  link : Link
  tried : Bool

/-- A way from one pair down to another one, by descents and by trials. -/
inductive Way (setting : Setting) : Schema → Schema → List Move → Schema → Schema → Prop where
  | here (s t : Schema) : Way setting s t [] s t
  | visited {s t u w : Schema} {link : Link} {moves : List Move} :
      Descent setting s t link.step link.old link.new →
      Way setting link.old link.new moves u w → Way setting s t (⟨link, false⟩ :: moves) u w
  | tried {s t u w : Schema} {link : Link} {moves : List Move} :
      Trial setting s t link.step link.old link.new →
      Way setting link.old link.new moves u w → Way setting s t (⟨link, true⟩ :: moves) u w

def linksOf (moves : List Move) : List Link := moves.map Move.link

/-- The path that a comparison has come to after a way from a pair at a path. A trial starts from
the empty path. -/
def reported (path : String) : List Move → String
  | [] => path
  | move :: moves => reported (if move.tried then "" else path ++ move.link.step.suffix) moves

theorem pathOf_append (links more : List Link) :
    pathOf (links ++ more) = pathOf links ++ pathOf more := by
  induction links with
  | nil => rw [List.nil_append, pathOf, String.empty_append]
  | cons link links ih => rw [List.cons_append, pathOf, ih, pathOf, String.append_assoc]

/-- What is reported is the part of the way behind the last trial, and all of it if there was no
trial. -/
theorem reported_behind (path : String) (moves : List Move) :
    ∃ before since, moves = before ++ since ∧ (∀ move ∈ since, move.tried = false) ∧
      (∀ move, before.getLast? = some move → move.tried = true) ∧
      reported path moves = (if before.isEmpty then path else "") ++ pathOf (linksOf since) := by
  induction moves generalizing path with
  | nil => exact ⟨[], [], rfl, nofun, nofun, (String.append_empty).symm⟩
  | cons move moves ih =>
    obtain ⟨before, since, split, direct, last, path_eq⟩ :=
      ih (if move.tried then "" else path ++ move.link.step.suffix)
    rw [split] at path_eq ⊢
    cases before with
    | cons first before =>
      refine ⟨move :: first :: before, since, rfl, direct, ?_, path_eq⟩
      rw [List.getLast?_cons_cons]
      exact last
    | nil =>
      rcases tried : move.tried with _ | _
      · refine ⟨[], move :: since, rfl, ?_, nofun, ?_⟩
        · rintro other hother
          rcases List.mem_cons.mp hother with rfl | hother
          · exact tried
          · exact direct other hother
        · rw [tried] at path_eq
          rw [reported, tried]
          refine path_eq.trans ?_
          show path ++ move.link.step.suffix ++ pathOf (linksOf since) =
            path ++ (move.link.step.suffix ++ pathOf (linksOf since))
          rw [String.append_assoc]
      · refine ⟨[move], since, rfl, direct, ?_, ?_⟩
        · rintro other hother
          obtain rfl : move = other := Option.some.inj hother
          exact tried
        · rw [tried] at path_eq
          rw [reported, tried]
          exact path_eq

/-! ## How comparisons stop -/

/-- The faults that a comparison of a pair at a path may end with: its memo has no room at all, or
it went a way of as many moves as there were levels and found none left. -/
def Stopped (setting : Setting) (levels : Nat) (path : String) (s t : Schema) (e : Fault) : Prop :=
  e = .memoFull ∨ ∃ moves u w, Way setting s t moves u w ∧ moves.length = levels ∧
    e = .tooDeep (reported path moves) setting.limit

variable {levels : Nat} {s t u w : Schema} {step : Step} {e : Fault}

theorem Stopped.visited {path : String} (descent : Descent setting s t step u w)
    (h : Stopped setting levels (path ++ step.suffix) u w e) :
    Stopped setting (levels + 1) path s t e := by
  rcases h with rfl | ⟨moves, x, y, way, length, rfl⟩
  · exact .inl rfl
  · exact .inr ⟨⟨⟨step, u, w⟩, false⟩ :: moves, x, y, .visited descent way, congrArg _ length, rfl⟩

theorem Stopped.tried (trial : Trial setting s t step u w) (h : Stopped setting levels "" u w e)
    (path : String) : Stopped setting (levels + 1) path s t e := by
  rcases h with rfl | ⟨moves, x, y, way, length, rfl⟩
  · exact .inl rfl
  · exact .inr ⟨⟨⟨step, u, w⟩, true⟩ :: moves, x, y, .tried trial way, congrArg _ length, rfl⟩

theorem exists_trial (setting : Setting) (s t : Schema)
    (hu : u ∈ (branchesOf setting ⟨"", s, t, false⟩).1)
    (hw : w ∈ (branchesOf setting ⟨"", s, t, false⟩).2) : ∃ step, Trial setting s t step u w := by
  obtain ⟨j, hj⟩ := List.mem_iff_getElem?.mp hw
  rcases split : (setting.new.follow t).schema.split?.isSome with _ | _
  · exact ⟨.branch j, .branch split hu hj⟩
  · exact ⟨.splitBranch, .splitBranch split hu hj⟩

/-! ## Prices on the way -/

/-- A cost is the price of a pair, as trials with enough levels find it. -/
def Found (setting : Setting) (s t : Schema) (cost : Nat) : Prop :=
  ∃ enough, ∀ n, enough ≤ n → price setting n s t = .done cost

theorem collect_of_found {α β : Type} {p : Nat → α → Outcome Change Fault β} {xs : List α}
    {ys : List β}
    (h : List.Forall₂ (fun x y => ∃ enough, ∀ n, enough ≤ n → p n x = .done y) xs ys) :
    ∃ enough, ∀ n, enough ≤ n → Outcome.collect (p n) xs = .done ys := by
  induction h with
  | nil => exact ⟨0, fun _ _ => rfl⟩
  | cons first _ ih =>
    obtain ⟨enough, first⟩ := first
    obtain ⟨enough', rest⟩ := ih
    refine ⟨max enough enough', fun n hn => ?_⟩
    rw [Outcome.collect, first n (Nat.le_trans (Nat.le_max_left _ _) hn), Outcome.done_andThen,
      rest n (Nat.le_trans (Nat.le_max_right _ _) hn), Outcome.done_andThen]

/-- Prices that are found one by one are found together, given enough levels. -/
theorem prices_of_found {olds news : List Schema} {costs : List (List Nat)}
    (h : List.Forall₂ (fun s row => List.Forall₂ (Found setting s) news row) olds costs) :
    ∃ n, (prices (price setting n) (olds, news)).result = .ok costs := by
  obtain ⟨enough, found⟩ := collect_of_found (h.imp fun _ _ row => collect_of_found row)
  exact ⟨enough, congrArg Outcome.result (found enough (Nat.le_refl _))⟩

/-! ## One visit -/

section

open Session

variable {known : Memo (String × String) Nat → Prop} {fault : Fault → Prop}

theorem ends_note (n : Note) :
    Ends (fun s => known s.1) fault (fun _ => True) (Comparing.note n) :=
  .update fun _ hs => hs

theorem ends_follow (refs : References) (s : Schema) :
    Ends (fun s => known s.1) fault (fun u => u = (refs.follow s).schema)
      (Comparing.follow refs s) := by
  unfold Comparing.follow
  rcases h : (refs.follow s).dangling with _ | r
  · simp only [h]
    exact .done rfl
  · simp only [h]
    exact (ends_note (.dangling r)).bind fun _ _ => .done rfl

variable {descend : Visit → Comparing Unit} {price : Schema → Schema → Comparing Nat} {v : Visit}
  {good : List (List Nat) → Prop}

theorem ends_alignBranches
    (priced : Ends (fun s => known s.1) fault good
      (Session.collect (fun s => Session.collect (price s) (branchesOf setting v).2)
        (branchesOf setting v).1))
    (aligned : ∀ costs, good costs → ∀ x ∈ branchVisits setting v costs,
      Ends (fun s => known s.1) fault (fun _ => True) (descend x)) :
    Ends (fun s => known s.1) fault (fun _ => True)
      (Comparing.alignBranches setting descend price v.path (oldOf setting v).split
        (newOf setting v).split (newOf setting v).split?.isSome) := by
  unfold Comparing.alignBranches
  rcases hold : (oldOf setting v).split.anyOf with _ | olds
  · exact .done trivial
  rcases hnew : (newOf setting v).split.anyOf with _ | news
  · exact .done trivial
  have sides : branchesOf setting v = (Comparing.fillUp (max olds.length news.length) olds,
      Comparing.fillUp (max olds.length news.length) news) := by
    unfold branchesOf branches
    rw [hold, hnew]
  have left := congrArg Prod.fst sides
  have right := congrArg Prod.snd sides
  dsimp only at left right ⊢
  rw [← left, ← right]
  exact priced.bind fun costs hcosts => (ends_note _).bind fun _ _ => .each (aligned costs hcosts)

/-- A visit ends as the trials of its branches and the visits below it do. -/
theorem ends_visit
    (priced : Ends (fun s => known s.1) fault good
      (Session.collect (fun s => Session.collect (price s) (branchesOf setting v).2)
        (branchesOf setting v).1))
    (aligned : ∀ costs, good costs → ∀ x ∈ branchVisits setting v costs,
      Ends (fun s => known s.1) fault (fun _ => True) (descend x))
    (below : ∀ step u w, .descend step u w ∈ tasksOf setting v →
      Ends (fun s => known s.1) fault (fun _ => True)
        (descend ⟨v.path ++ step.suffix, u, w, false⟩)) :
    Ends (fun s => known s.1) fault (fun _ => True)
      (Comparing.visit setting descend price v) := by
  have body : Ends (fun s => known s.1) fault (fun _ => True)
      (Session.bind (Comparing.alignBranches setting descend price v.path
        (oldOf setting v).split (newOf setting v).split (newOf setting v).split?.isSome) fun _ =>
          Session.each (Comparing.perform descend v.path) (tasksOf setting v)) := by
    refine (ends_alignBranches priced aligned).bind fun _ _ => .each fun task htask => ?_
    cases task with
    | report edit => exact .emit _
    | descend step u w => exact below step u w htask
  refine (ends_follow setting.old v.old).bind ?_
  rintro _ rfl
  refine (ends_follow setting.new v.new).bind ?_
  rintro _ rfl
  show Ends _ _ _ (if isSplit setting v = true then _ else _)
  split
  · exact (ends_note _).bind fun _ _ => body
  · exact body

/-- A visit stops where a pair below it or a trial of its branches stops. -/
theorem stopped_visit
    (hd : ∀ x : Visit, Ends (fun s => known s.1) (Stopped setting levels x.path x.old x.new)
      (fun _ => True) (descend x))
    (hp : ∀ s t, Ends (fun s => known s.1) (Stopped setting levels "" s t) (Found setting s t)
      (price s t)) (v : Visit) :
    Ends (fun s => known s.1) (Stopped setting (levels + 1) v.path v.old v.new) (fun _ => True)
      (Comparing.visit setting descend price v) := by
  have priced : Ends (fun s => known s.1) (Stopped setting (levels + 1) v.path v.old v.new)
      (fun costs => ∃ n,
        (prices (Course.price setting n) (branchesOf setting v)).result = .ok costs)
      (Session.collect (fun s => Session.collect (price s) (branchesOf setting v).2)
        (branchesOf setting v).1) := by
    -- Whatever stops a trial stops the pair whose branches it tries.
    refine (Ends.collect fun s hs => Ends.collect fun t ht => ?_).mono (fun _ he => he)
      fun costs => prices_of_found
    obtain ⟨step, trial⟩ := exists_trial setting v.old v.new hs ht
    exact (hp s t).mono (fun e stopped => stopped.tried trial v.path) fun _ found => found
  refine ends_visit priced (fun costs hcosts x hx => ?_) fun step u w htask => ?_
  · obtain ⟨n, found⟩ := hcosts
    obtain ⟨step, path, descent⟩ := descent_of_branchVisits found hx
    refine (hd x).mono (fun e stopped => ?_) fun _ _ => trivial
    rw [path] at stopped
    exact stopped.visited descent
  · exact (hd ⟨v.path ++ step.suffix, u, w, false⟩).mono
      (fun e stopped => stopped.visited (descent_of_tasksOf htask)) fun _ _ => trivial

/-! ## Whole comparisons -/

/-- A comparison that stops has gone a way of as many moves as it had levels, whatever its memo
holds, as long as pricing stops only where a trial does and finds only prices. -/
theorem ends_compareWithin (known : Memo (String × String) Nat → Prop)
    (hp : ∀ levels, (∀ v : Visit, Ends (fun s => known s.1)
        (Stopped setting levels v.path v.old v.new) (fun _ => True)
        (compareWithin setting levels v)) →
      ∀ s t, Ends (fun s => known s.1) (Stopped setting levels "" s t) (Found setting s t)
        (setting.pricing (fun s t => tally (compareWithin setting levels ⟨"", s, t, false⟩)) s t))
    (levels : Nat) (v : Visit) :
    Ends (fun s => known s.1) (Stopped setting levels v.path v.old v.new) (fun _ => True)
      (compareWithin setting levels v) := by
  induction levels generalizing v with
  | zero => exact .fail (.inr ⟨[], v.old, v.new, .here _ _, rfl, rfl⟩)
  | succ levels ih => exact stopped_visit ih (hp levels ih) v

theorem ends_memoised (memoised : setting.pricing = Setting.memoised) (levels : Nat) (v : Visit) :
    Ends (HoldsPrices setting) (Stopped setting levels v.path v.old v.new) (fun _ => True)
      (compareWithin setting levels v) := by
  refine ends_compareWithin (fun memo => memo.Sound (IsPrice setting)) ?_ levels v
  intro levels ih s t notebook sound
  rw [memoised]
  obtain ⟨kept, -, -, enough, below⟩ :=
    tracks_pricing (tracks_memoised memoised levels) s t notebook sound
  refine ⟨kept, fun e failed => ?_, fun cost found => ⟨enough, fun n hn => ?_⟩⟩
  · rcases Memo.fetch_error failed with rfl | failed
    · exact .inl rfl
    · exact ((ih ⟨"", s, t, false⟩).tally _ (sound.lookUp _)).2.1 e failed
  · have silent : (price setting n s t).emitted = [] := Outcome.tally_emitted _
    have same := (below n hn).2 cost found
    exact Outcome.ext silent ((congrArg Outcome.result same).trans found)

/-- Without any room nothing is ever priced. -/
theorem ends_without_room (memoised : setting.pricing = Setting.memoised) (levels : Nat)
    (v : Visit) :
    Ends (fun s => s.1.capacity = 0 ∧ s.1.entries = [])
      (Stopped setting levels v.path v.old v.new) (fun _ => True)
      (compareWithin setting levels v) := by
  refine ends_compareWithin (fun memo => memo.capacity = 0 ∧ memo.entries = []) ?_ levels v
  rintro levels ih s t ⟨memo, notes⟩ ⟨capacity, entries⟩
  rw [memoised]
  have missed : memo.lookUp (s.fingerprint, t.fingerprint) =
      (none, { memo with misses := memo.misses + 1 }) := by
    unfold Memo.lookUp
    rw [entries]
    rfl
  have trial := (ih ⟨"", s, t, false⟩).tally ({ memo with misses := memo.misses + 1 }, notes)
    ⟨capacity, entries⟩
  unfold Setting.memoised Memo.fetch
  simp only [missed, Memo.remember]
  rcases run : tally (compareWithin setting levels ⟨"", s, t, false⟩)
    ({ memo with misses := memo.misses + 1 }, notes) with ⟨⟨items, e | cost⟩, memo', notes'⟩
  · rw [run] at trial
    exact ⟨trial.1, trial.2.1, fun _ found => by cases found⟩
  · rw [run] at trial
    have full : memo'.store (s.fingerprint, t.fingerprint) cost = none := if_pos trial.1.1
    simp only [full]
    exact ⟨trial.1, fun e failed => .inl (Except.error.inj failed).symm, fun _ found => by
      cases found⟩

end

theorem suffix_eq_empty_iff {step : Step} : step.suffix = "" ↔ step = .splitBranch := by
  constructor
  · intro empty
    have chars := congrArg String.toList empty
    cases step with
    | splitBranch => rfl
    | _ => simp [Step.suffix] at chars
  · rintro rfl
    rfl

/-- A way has a path of its own unless it goes only to branches that were made on the way. -/
theorem pathOf_eq_empty_iff {moves : List Move} :
    pathOf (linksOf moves) = "" ↔ ∀ move ∈ moves, move.link.step = .splitBranch := by
  induction moves with
  | nil => exact ⟨fun _ => nofun, fun _ => rfl⟩
  | cons move moves ih =>
    rw [List.forall_mem_cons, ← ih, ← suffix_eq_empty_iff]
    show move.link.step.suffix ++ pathOf (linksOf moves) = "" ↔ _
    exact String.append_eq_empty_iff

/-- The end of a way has the path of the whole way if nothing in front of it has a path. -/
theorem pathOf_eq_whole_iff {before since : List Move} :
    pathOf (linksOf since) = pathOf (linksOf (before ++ since)) ↔
      ∀ move ∈ before, move.link.step = .splitBranch := by
  have whole : pathOf (linksOf (before ++ since)) =
      pathOf (linksOf before) ++ pathOf (linksOf since) := by
    rw [linksOf, List.map_append, pathOf_append]
    rfl
  rw [whole, ← pathOf_eq_empty_iff]
  constructor
  · intro same
    have chars := congrArg String.toList same
    rw [String.toList_append] at chars
    exact String.toList_inj.mp (List.append_left_eq_self.mp chars.symm)
  · intro empty
    rw [empty, String.empty_append]

end Course

namespace Comparison

open Course

theorem ofRoots_stopped (limit : DepthLimit) (capacity : Nat) (s t : Schema) {e : Fault}
    (h : (ofRoots limit (.empty capacity) s t).fault = some e) :
    Stopped (Setting.ofRoots s t limit.value) (limit.value + 1) "" s t e := by
  have failed := ((ofRoots_eq s t limit (.empty capacity)).2 e).mp h
  have levels : (Setting.ofRoots s t limit.value).levelsFrom 0 = limit.value + 1 := by
    show (((limit.value : Int) + 1 - 0).toNat) = _
    omega
  rw [levels] at failed
  rcases Nat.eq_zero_or_pos capacity with rfl | room
  · exact (ends_without_room rfl _ (rootVisit s t) (.empty 0, []) ⟨rfl, rfl⟩).2.1 e failed
  · exact (ends_memoised rfl _ (rootVisit s t) (.empty capacity, [])
      (Memo.sound_empty room)).2.1 e failed

/-- Only the comparison of the roots goes too deep: two documents that are no schemas, or a memo that
cannot be made, fail otherwise. -/
theorem ofDocuments_tooDeep {limit : DepthLimit} {capacity : Int} {old new : Json} {path : String}
    {depth : Nat} (h : (ofDocuments limit capacity old new).fault = some (.tooDeep path depth)) :
    ∃ s t room, Schema.ofDocument old = .ok s ∧ Schema.ofDocument new = .ok t ∧
      (ofRoots limit (.empty room) s t).fault = some (.tooDeep path depth) := by
  unfold ofDocuments at h
  split at h
  · next e failed =>
    obtain rfl : e = .tooDeep path depth := Option.some.inj h
    rcases Schema.ofDocument_fault failed with ⟨what, place, other⟩ | other <;> cases other
  · next e _ failed =>
    obtain rfl : e = .tooDeep path depth := Option.some.inj h
    rcases Schema.ofDocument_fault failed with ⟨what, place, other⟩ | other <;> cases other
  · next e _ _ failed =>
    obtain rfl : e = .tooDeep path depth := Option.some.inj h
    unfold Memo.ofCapacity at failed
    split at failed <;> cases failed
  · next s t memo hs ht made =>
    unfold Memo.ofCapacity at made
    split at made
    · obtain rfl := Except.ok.inj made
      exact ⟨s, t, _, hs, ht, h⟩
    · cases made

/-- A comparison of two documents that goes too deep has gone a way of one move more than its limit,
starting from the roots. The fault names the part of the way behind the last trial, so it names the
whole way exactly if there is nothing in front of that trial but branches without a place of their
own. -/
theorem tooDeep_exact (limit : DepthLimit) (capacity : Int) {old new : Json} {path : String}
    {depth : Nat} (h : (ofDocuments limit capacity old new).fault = some (.tooDeep path depth)) :
    depth = limit.value ∧ ∃ s t before since u w,
      Schema.ofDocument old = .ok s ∧ Schema.ofDocument new = .ok t ∧
      Way (Setting.ofRoots s t limit.value) s t (before ++ since) u w ∧
      (before ++ since).length = limit.value + 1 ∧ (∀ move ∈ since, move.tried = false) ∧
      (∀ move, before.getLast? = some move → move.tried = true) ∧
      path = pathOf (linksOf since) ∧
      (path = pathOf (linksOf (before ++ since)) ↔
        ∀ move ∈ before, move.link.step = .splitBranch) := by
  obtain ⟨s, t, room, hs, ht, failed⟩ := ofDocuments_tooDeep h
  rcases ofRoots_stopped limit room s t failed with other | ⟨moves, u, w, way, length, stopped⟩
  · cases other
  · obtain ⟨path_eq, depth_eq⟩ := Fault.tooDeep.inj stopped
    obtain ⟨before, since, rfl, direct, last, behind⟩ := reported_behind "" moves
    rw [ite_self, String.empty_append] at behind
    have path_eq := path_eq.trans behind
    exact ⟨depth_eq, s, t, before, since, u, w, hs, ht, way, length, direct, last, path_eq,
      path_eq ▸ pathOf_eq_whole_iff⟩

/-- A property below a branch of a property. -/
def nestedBranch : Json :=
  .obj [("properties", .obj [("p", .obj [("anyOf", .arr [.obj [("properties",
    .obj [("a", .obj [])])]])])])]

/-- The trial of the branch is a level too deep. Its path is missing what leads to the branch. -/
theorem tooDeep_exact_nested :
    (ofDocuments ⟨2, by decide⟩ 1024 nestedBranch nestedBranch).fault = some (.tooDeep ".a" 2) ∧
    ∃ s t before since u w,
      Schema.ofDocument nestedBranch = .ok s ∧ Schema.ofDocument nestedBranch = .ok t ∧
      Way (Setting.ofRoots s t 2) s t (before ++ since) u w ∧ (before ++ since).length = 3 ∧
      (∀ move ∈ since, move.tried = false) ∧
      (∀ move, before.getLast? = some move → move.tried = true) ∧
      ".a" = pathOf (linksOf since) ∧
      (".a" = pathOf (linksOf (before ++ since)) ↔
        ∀ move ∈ before, move.link.step = .splitBranch) := by
  have failed : (ofDocuments ⟨2, by decide⟩ 1024 nestedBranch nestedBranch).fault =
      some (.tooDeep ".a" 2) := by rfl
  exact ⟨failed, (tooDeep_exact ⟨2, by decide⟩ 1024 failed).2⟩

end Comparison

end SchemaDrift
