import SchemaDrift.Proofs.Extension

/-!
# The capacity of the memo

A price that is found in the memo was found out by an earlier trial, maybe at a lesser depth; if it
has been dropped, the trial is made again, maybe at a depth where it runs out of levels. So the
capacity of the memo may decide whether a comparison comes to its end, but not on much else.

* `Session.Roomy`: with a memo that drops nothing a session does not depend on the capacity.
* `Course.walk` is the course whose trials have levels of their own, and `Course.tracks_walk` says
  that a comparison with a memo is bounded by it.
* `Comparison.capacity_decides` is the statement about documents.
-/

namespace SchemaDrift

/-! ## Memos that drop nothing -/

namespace Memo

variable {κ ν : Type}

def resized (m : Memo κ ν) (capacity : Nat) : Memo κ ν := { m with capacity }

/-- How a memo may change while a session uses it: keys are missed, and at most one entry is made
for each of them. -/
structure Grown (m m' : Memo κ ν) : Prop where
  capacity : m'.capacity = m.capacity
  misses : m.misses ≤ m'.misses
  entries : m'.entries.length + m.misses ≤ m.entries.length + m'.misses

theorem Grown.refl (m : Memo κ ν) : Grown m m := ⟨rfl, Nat.le_refl _, Nat.le_refl _⟩

theorem Grown.trans {m m' m'' : Memo κ ν} (h : Grown m m') (h' : Grown m' m'') : Grown m m'' :=
  ⟨h'.capacity.trans h.capacity, Nat.le_trans h.misses h'.misses, by
    have := h.entries
    have := h'.entries
    omega⟩

variable [BEq κ]

theorem length_dropKey_le (key : κ) (entries : List (κ × ν)) :
    (dropKey key entries).length ≤ entries.length := by
  induction entries with
  | nil => exact Nat.le_refl _
  | cons e rest ih =>
    unfold dropKey
    split
    · exact Nat.le_succ_of_le ih
    · exact Nat.succ_le_succ ih

theorem length_dropKey_lt [LawfulBEq κ] {key : κ} {entries : List (κ × ν)} {v : ν}
    (h : entries.lookup key = some v) : (dropKey key entries).length < entries.length := by
  induction entries with
  | nil => exact nomatch h
  | cons e rest ih =>
    obtain ⟨k, w⟩ := e
    unfold dropKey
    split
    · exact Nat.lt_succ_of_le (length_dropKey_le key rest)
    · next other =>
      have later : rest.lookup key = some v := by
        have differ : (key == k) = false := beq_false_of_ne fun same => other (by simp [same])
        simpa [List.lookup_cons, differ] using h
      exact Nat.succ_lt_succ (ih later)

/-- Where there is room for one more entry, storing drops nothing. -/
theorem store_of_room {m : Memo κ ν} (key : κ) (v : ν) (h : m.entries.length < m.capacity) :
    m.store key v = some { m with entries := (key, v) :: dropKey key m.entries } := by
  have fits : ((key, v) :: dropKey key m.entries).length ≤ m.capacity :=
    Nat.succ_le_of_lt (Nat.lt_of_le_of_lt (length_dropKey_le key m.entries) h)
  rw [store, if_neg (Nat.ne_zero_of_lt h), List.take_of_length_le fits]

/-- Storing makes at most one entry. -/
theorem length_store_le {m m' : Memo κ ν} {key : κ} {v : ν} (h : m.store key v = some m') :
    m'.capacity = m.capacity ∧ m'.misses = m.misses ∧
      m'.entries.length ≤ m.entries.length + 1 := by
  unfold store at h
  split at h
  · exact nomatch h
  · obtain rfl := Option.some.inj h
    have shorter := length_dropKey_le key m.entries
    have taken := List.length_take_le m.capacity ((key, v) :: dropKey key m.entries)
    refine ⟨rfl, rfl, Nat.le_trans (List.length_take_le' _ _) ?_⟩
    exact Nat.succ_le_succ shorter

end Memo

/-! ## Sessions whose memo drops nothing -/

namespace Session

variable {κ ν τ ω ε α β : Type}

/-- A session for which the capacity of the memo makes no difference as long as the memo has room
for every key that is missed. -/
def Roomy (f : Session (Memo κ ν × τ) ω ε α) : Prop :=
  ∀ m t, m.Grown (f (m, t)).2.1 ∧
    ∀ capacity, m.entries.length ≤ m.misses → (f (m, t)).2.1.misses ≤ m.capacity →
      (f (m, t)).2.1.misses ≤ capacity →
        f (m.resized capacity, t) =
          ((f (m, t)).1, ((f (m, t)).2.1.resized capacity, (f (m, t)).2.2))

namespace Roomy

theorem done (x : α) : Roomy (κ := κ) (ν := ν) (τ := τ) (ω := ω) (ε := ε) (done x) :=
  fun m _ => ⟨.refl m, fun _ _ _ _ => rfl⟩

theorem fail (e : ε) : Roomy (κ := κ) (ν := ν) (τ := τ) (ω := ω) (α := α) (fail e) :=
  fun m _ => ⟨.refl m, fun _ _ _ _ => rfl⟩

theorem emit (item : ω) : Roomy (κ := κ) (ν := ν) (τ := τ) (ε := ε) (emit item) :=
  fun m _ => ⟨.refl m, fun _ _ _ _ => rfl⟩

theorem bind {f : Session (Memo κ ν × τ) ω ε α} {g : α → Session (Memo κ ν × τ) ω ε β}
    (hf : Roomy f) (hg : ∀ x, Roomy (g x)) : Roomy (bind f g) := by
  intro m t
  obtain ⟨grown, same⟩ := hf m t
  rcases run : f (m, t) with ⟨⟨items, e | x⟩, m', t'⟩
  · have stopped : Session.bind f g (m, t) = (⟨items, .error e⟩, (m', t')) := by
      simp [Session.bind, run]
    rw [run] at grown same
    rw [stopped]
    refine ⟨grown, fun c held room room' => ?_⟩
    simp [Session.bind, same c held room room']
  · obtain ⟨grown', same'⟩ := hg x m' t'
    have goes_on : Session.bind f g (m, t) =
        (⟨items ++ (g x (m', t')).1.emitted, (g x (m', t')).1.result⟩, (g x (m', t')).2) := by
      simp [Session.bind, run]
    rw [run] at grown same
    rw [goes_on]
    refine ⟨grown.trans grown', fun c held room room' => ?_⟩
    dsimp only at grown same room room'
    have first := same c held (Nat.le_trans grown'.misses room) (Nat.le_trans grown'.misses room')
    have held' : m'.entries.length ≤ m'.misses := by
      have := grown.entries
      omega
    have second := same' c held' (by rw [grown.capacity]; exact room) room'
    simp [Session.bind, first, second]

theorem each {f : α → Session (Memo κ ν × τ) ω ε Unit} (h : ∀ x, Roomy (f x)) (xs : List α) :
    Roomy (each f xs) := by
  induction xs with
  | nil => exact done ()
  | cons x xs ih => exact (h x).bind fun _ => ih

theorem collect {f : α → Session (Memo κ ν × τ) ω ε β} (h : ∀ x, Roomy (f x)) (xs : List α) :
    Roomy (collect f xs) := by
  induction xs with
  | nil => exact done []
  | cons x xs ih => exact (h x).bind fun _ => ih.bind fun _ => done _

theorem tally {f : Session (Memo κ ν × τ) ω ε Unit} (h : Roomy f) : Roomy (tally f) := by
  intro m t
  obtain ⟨grown, same⟩ := h m t
  have counted : (Session.tally f (m, t)).2 = (f (m, t)).2 := by
    unfold Session.tally
    rcases f (m, t) with ⟨⟨items, e | x⟩, m', t'⟩ <;> rfl
  rw [counted]
  refine ⟨grown, fun c held room room' => ?_⟩
  unfold Session.tally
  rw [same c held room room']
  rcases f (m, t) with ⟨⟨items, e | x⟩, m', t'⟩ <;> rfl

section

variable [BEq κ] {compute : Session (Memo κ ν × τ) ω ε ν} (refusal : ε) (key : κ)

/-- A memo that has fewer entries than keys were missed has room for one more. -/
theorem remember (h : Roomy compute) (m : Memo κ ν) (t : τ) :
    (Memo.remember refusal key compute (m, t)).2.1.capacity = m.capacity ∧
      m.misses ≤ (Memo.remember refusal key compute (m, t)).2.1.misses ∧
      (Memo.remember refusal key compute (m, t)).2.1.entries.length + m.misses ≤
        m.entries.length + 1 + (Memo.remember refusal key compute (m, t)).2.1.misses ∧
      ∀ capacity, m.entries.length < m.misses →
        (Memo.remember refusal key compute (m, t)).2.1.misses ≤ m.capacity →
        (Memo.remember refusal key compute (m, t)).2.1.misses ≤ capacity →
          Memo.remember refusal key compute (m.resized capacity, t) =
            ((Memo.remember refusal key compute (m, t)).1,
              ((Memo.remember refusal key compute (m, t)).2.1.resized capacity,
                (Memo.remember refusal key compute (m, t)).2.2)) := by
  obtain ⟨⟨capacity, misses, entries⟩, same⟩ := h m t
  rcases run : compute (m, t) with ⟨⟨items, e | v⟩, m', t'⟩
  · have stopped : Memo.remember refusal key compute (m, t) = (⟨items, .error e⟩, (m', t')) := by
      simp [Memo.remember, run]
    rw [run] at capacity misses entries same
    rw [stopped]
    refine ⟨capacity, misses, by dsimp only at entries ⊢; omega, fun c held room room' => ?_⟩
    simp [Memo.remember, same c (Nat.le_of_lt held) room room']
  rw [run] at capacity misses entries same
  dsimp only at capacity misses entries same
  rcases stored : m'.store key v with _ | m''
  · have refused : Memo.remember refusal key compute (m, t) =
        (⟨items, .error refusal⟩, (m', t')) := by
      simp [Memo.remember, run, stored]
    rw [refused]
    refine ⟨capacity, misses, by dsimp only; omega, fun c held room _ => ?_⟩
    have more : m'.entries.length < m'.capacity := by
      dsimp only at room
      omega
    cases (Memo.store_of_room key v more).symm.trans stored
  · have kept : Memo.remember refusal key compute (m, t) = (⟨items, .ok v⟩, (m'', t')) := by
      simp [Memo.remember, run, stored]
    obtain ⟨capacity', misses', entries'⟩ := Memo.length_store_le stored
    rw [kept]
    refine ⟨capacity'.trans capacity, by dsimp only; omega, by dsimp only; omega,
      fun c held room room' => ?_⟩
    dsimp only at room room'
    have more : m'.entries.length < m'.capacity := by omega
    have more' : (m'.resized c).entries.length < (m'.resized c).capacity := by
      show m'.entries.length < c
      omega
    obtain rfl := Option.some.inj ((Memo.store_of_room key v more).symm.trans stored)
    simp only [Memo.remember, same c (Nat.le_of_lt held) room room',
      Memo.store_of_room key v more']
    rfl

/-- A value that is missed is entered into a memo that has room for it, so nothing is dropped. -/
theorem fetch [LawfulBEq κ] (h : Roomy compute) : Roomy (Memo.fetch refusal key compute) := by
  intro m t
  rcases found : m.entries.lookup key with _ | v
  · have miss (c : Nat) : Memo.fetch refusal key compute (m.resized c, t) =
        Memo.remember refusal key compute
          ({ m with misses := m.misses + 1, capacity := c }, t) := by
      simp [Memo.fetch, Memo.lookUp, Memo.resized, found]
    have missed : Memo.fetch refusal key compute (m, t) =
        Memo.remember refusal key compute ({ m with misses := m.misses + 1 }, t) :=
      miss m.capacity
    obtain ⟨capacity, misses, entries, same⟩ :=
      remember refusal key h { m with misses := m.misses + 1 } t
    rw [missed]
    refine ⟨⟨capacity, Nat.le_of_succ_le misses, by dsimp only at entries; omega⟩,
      fun c held room room' => ?_⟩
    rw [miss]
    exact same c (Nat.lt_succ_of_le held) room room'
  · have hit (c : Nat) : Memo.fetch refusal key compute (m.resized c, t) =
        (⟨[], .ok v⟩, ({ m with entries := (key, v) :: Memo.dropKey key m.entries,
                                hits := m.hits + 1, capacity := c }, t)) := by
      simp [Memo.fetch, Memo.lookUp, Memo.resized, found]
    have held : Memo.fetch refusal key compute (m, t) = _ := hit m.capacity
    rw [held]
    refine ⟨⟨rfl, Nat.le_refl _, ?_⟩, fun c _ _ _ => hit c⟩
    have shorter := Memo.length_dropKey_lt found
    simp only [List.length_cons]
    omega

end

end Roomy

end Session

/-! ## Comparisons whose memo drops nothing -/

namespace Comparing

open Session

theorem roomy_note (n : Note) : Roomy (note n) := fun m _ => ⟨.refl m, fun _ _ _ _ => rfl⟩

theorem roomy_follow (refs : References) (s : Schema) : Roomy (follow refs s) := by
  unfold follow
  dsimp only
  split
  · exact (roomy_note _).bind fun _ => .done _
  · exact .done _

section

variable {descend : Visit → Comparing Unit} {price : Schema → Schema → Comparing Nat}

theorem roomy_alignBranches (setting : Setting) (hd : ∀ v, Roomy (descend v))
    (hp : ∀ s t, Roomy (price s t)) (path : String) (old new : Schema) (split : Bool) :
    Roomy (alignBranches setting descend price path old new split) := by
  unfold alignBranches
  rcases old.anyOf with _ | olds
  · exact .done ()
  rcases new.anyOf with _ | news
  · exact .done ()
  refine (Roomy.collect (fun s => Roomy.collect (hp s) _) _).bind fun costs => ?_
  exact (roomy_note _).bind fun _ => Roomy.each hd _

theorem roomy_perform (hd : ∀ v, Roomy (descend v)) (path : String) (task : Task) :
    Roomy (perform descend path task) := by
  cases task with
  | report edit => exact .emit _
  | descend step s t => exact hd _

theorem roomy_visit (setting : Setting) (hd : ∀ v, Roomy (descend v))
    (hp : ∀ s t, Roomy (price s t)) (v : Visit) : Roomy (visit setting descend price v) := by
  refine (roomy_follow _ _).bind fun old => (roomy_follow _ _).bind fun new => ?_
  have body := (roomy_alignBranches setting hd hp v.path old.split new.split
    new.split?.isSome).bind fun _ => Roomy.each (roomy_perform hd v.path)
      (tasks v.aligned (old.split?.isSome || new.split?.isSome) old.split new.split)
  show Roomy (if (old.split?.isSome || new.split?.isSome) = true then _ else _)
  split
  · exact (roomy_note _).bind fun _ => body
  · exact body

end

/-- While the memo has room for every price that is missed, its capacity makes no difference to a
comparison. -/
theorem roomy_within {setting : Setting} (memoised : setting.pricing = Setting.memoised)
    (levels : Nat) (v : Visit) : Roomy (compareWithin setting levels v) := by
  induction levels generalizing v with
  | zero => exact .fail _
  | succ levels ih =>
    have priced (s t : Schema) : Roomy (Setting.memoised
        (fun s t => tally (compareWithin setting levels ⟨"", s, t, false⟩)) s t) :=
      (ih ⟨"", s, t, false⟩).tally.fetch _ _
    rw [← memoised] at priced
    exact roomy_visit setting ih priced v

end Comparing

/-! ## Comparisons whose trials have levels of their own -/

namespace Course

/-- The course with a number of levels left, if the trials on the way have another number of
levels, at whatever depth they are made. -/
def walk (setting : Setting) (trials : Nat) : Nat → Visit → Outcome Change Fault Unit
  | 0, v => .fail (.tooDeep v.path setting.limit)
  | levels + 1, v => visited setting (walk setting trials levels) (price setting trials) v

/-- A comparison with a memo goes at most as far as one whose trials have as many levels as they
need: a price that it finds in the memo needs none. -/
theorem tracks_walk {setting : Setting} (memoised : setting.pricing = Setting.memoised)
    (levels : Nat) (v : Visit) :
    Session.Tracks (HoldsPrices setting) (IsTooDeep setting.limit) 0
      (compareWithin setting levels v) fun trials => walk setting trials levels v := by
  induction levels generalizing v with
  | zero => exact Session.Tracks.fail ⟨v.path, rfl⟩
  | succ levels ih =>
    have priced (s t : Schema) := (tracks_pricing (tracks_memoised memoised levels) s t).lower
      (price_precedes setting (Nat.zero_le levels) s t)
    rw [← memoised] at priced
    exact tracks_visit setting ih priced v

end Course

namespace Comparison

variable {limit : DepthLimit} {old new : Schema}

/-- How many prices a comparison of two roots does not find in a memo of the given capacity. -/
def missed (limit : DepthLimit) (capacity : Nat) (old new : Schema) : Nat :=
  (rootSession limit old new (.empty capacity, [])).2.1.misses

/-- With room for every price that it misses, a comparison comes out the same with any other
capacity that has the room. -/
theorem outcome_of_room {m n : Nat} (h : missed limit m old new ≤ min m n) :
    (rootSession limit old new (.empty n, [])).1 =
      (rootSession limit old new (.empty m, [])).1 := by
  have roomy : Session.Roomy (rootSession limit old new) :=
    Comparing.roomy_within rfl ((Setting.ofRoots old new limit.value).levelsFrom 0)
      (rootVisit old new)
  obtain ⟨-, same⟩ := roomy (.empty m) []
  have resized := same n (Nat.le_refl 0) (Nat.le_trans h (Nat.min_le_left m n))
    (Nat.le_trans h (Nat.min_le_right m n))
  exact (congrArg Prod.fst resized :)

/-- If the capacity of the memo decides whether a comparison of two documents fails, then the one
that fails goes too deep, and it has reported the beginning of what the other one reports. It is
only trials that go too deep: without a memo the comparison fails as well, but with trials that may
go as deep as they have to it comes to the end of the other one. And neither memo has room for the
prices that the comparisons miss: if either comparison had missed no more prices than both memos can
hold, it would not have come out in two ways. -/
theorem capacity_decides {limit : DepthLimit} {m n : Nat} (room : 1 ≤ m) (room' : 1 ≤ n)
    {old new : Json} {changes : List Change} {e : Fault}
    (completed : (ofDocuments limit m old new).changes = .ok changes)
    (failed : (ofDocuments limit n old new).fault = some e) :
    ∃ s t, Schema.ofDocument old = .ok s ∧ Schema.ofDocument new = .ok t ∧
      Course.IsTooDeep limit.value e ∧
      (ofDocuments limit n old new).reported <+: changes ∧
      (∀ notebook, ¬((Setting.ofRoots s t limit.value).unremembered.answer
        ⟨0, rootVisit s t⟩ notebook).1.Completes) ∧
      (∃ enough, ∀ trials, enough ≤ trials →
        Course.walk (Setting.ofRoots s t limit.value) trials
          ((Setting.ofRoots s t limit.value).levelsFrom 0) (rootVisit s t) = ⟨changes, .ok ()⟩) ∧
      min m n < missed limit m s t ∧ min m n < missed limit n s t := by
  obtain ⟨s, t, hs, ht⟩ := documents_of_changes completed
  have read (k : Nat) : ofDocuments limit k old new = ofRoots limit (.empty k) s t := by
    unfold ofDocuments
    rw [hs, ht]
    rfl
  rw [read, changes_eq_ok_iff, fault_eq_none_iff, reported_eq] at completed
  rw [read] at failed ⊢
  obtain ⟨ended, rfl⟩ := completed
  have unended : (rootSession limit s t (.empty n, [])).1.result = .error e :=
    ((ofRoots_eq s t limit (.empty n)).2 e).mp failed
  have tracked : Session.Tracks (Course.HoldsPrices (Setting.ofRoots s t limit.value)) _ _
      (rootSession limit s t) _ :=
    Course.tracks_memoised rfl ((Setting.ofRoots s t limit.value).levelsFrom 0) (rootVisit s t)
  obtain ⟨-, -, -, enough, below⟩ := tracked (.empty m, []) (Memo.sound_empty room)
  obtain ⟨-, faults, above, enough', below'⟩ := tracked (.empty n, []) (Memo.sound_empty room')
  have whole := (below (max enough enough') (Nat.le_max_left _ _)).2 () ended
  have part := (below' (max enough enough') (Nat.le_max_right _ _)).1
  rw [whole] at part
  refine ⟨s, t, hs, ht, faults e unended, reported_eq limit _ s t ▸ part,
    fun notebook completes => ?_, ?_, ?_, ?_⟩
  · obtain ⟨u, alone⟩ := completes
    have course := (congrArg Outcome.result (Course.within_eq_unremembered alone)).trans alone
    have ended' : (rootSession limit s t (.empty n, [])).1.result = .ok u :=
      (congrArg Outcome.result (above.2 u course)).trans course
    exact nomatch ended'.symm.trans unended
  · have tracked : Session.Tracks (Course.HoldsPrices (Setting.ofRoots s t limit.value)) _ _
        (rootSession limit s t) _ :=
      Course.tracks_walk rfl ((Setting.ofRoots s t limit.value).levelsFrom 0) (rootVisit s t)
    obtain ⟨-, -, -, enough, bounded⟩ := tracked (.empty m, []) (Memo.sound_empty room)
    refine ⟨enough, fun trials many => ?_⟩
    exact ((bounded trials many).2 () ended).trans (Outcome.ext rfl ended)
  · refine Nat.lt_of_not_le fun roomy => ?_
    rw [outcome_of_room roomy] at unended
    exact nomatch ended.symm.trans unended
  · refine Nat.lt_of_not_le fun roomy => ?_
    rw [outcome_of_room (Nat.min_comm m n ▸ roomy)] at ended
    exact nomatch ended.symm.trans unended

/-- Two branches for objects, one of them with a property and with limits for texts, in two
positions, one of which is a level deeper. -/
def shallowAndDeep : Json :=
  let branches : Json := .obj [("anyOf", .arr
    [.obj [("type", .str "object"), ("minLength", .num (.int 1)), ("maxLength", .num (.int 2)),
        ("properties", .obj [("x", .obj [])])],
      .obj [("type", .str "object")]])]
  .obj [("items", .arr [branches, .obj [("items", branches)]])]

/-- The same with the property in the other branch. -/
def shallowAndDeepMoved : Json :=
  let branches : Json := .obj [("anyOf", .arr
    [.obj [("type", .str "object"), ("minLength", .num (.int 1)), ("maxLength", .num (.int 2))],
      .obj [("type", .str "object"), ("properties", .obj [("x", .obj [])])]])]
  .obj [("items", .arr [branches, .obj [("items", branches)]])]

/-- The branches are priced where there are levels enough. A memo with four places still knows the
prices one level further down; a memo with one place does not, and there the trial of the branches
with the property on both sides goes too deep, although these are not aligned. -/
theorem capacity_decides_deep :
    ∃ s t changes e, 1 ≤ 4 ∧ 1 ≤ 1 ∧
      (ofDocuments ⟨3, by decide⟩ (4 : Nat) shallowAndDeep shallowAndDeepMoved).changes =
        .ok changes ∧
      (ofDocuments ⟨3, by decide⟩ (1 : Nat) shallowAndDeep shallowAndDeepMoved).fault = some e ∧
      Schema.ofDocument shallowAndDeep = .ok s ∧ Schema.ofDocument shallowAndDeepMoved = .ok t ∧
      Course.IsTooDeep 3 e ∧
      (ofDocuments ⟨3, by decide⟩ (1 : Nat) shallowAndDeep shallowAndDeepMoved).reported <+:
        changes ∧
      min 4 1 < missed ⟨3, by decide⟩ 4 s t ∧ min 4 1 < missed ⟨3, by decide⟩ 1 s t := by
  have enough : (ofDocuments ⟨3, by decide⟩ (4 : Nat) shallowAndDeep
      shallowAndDeepMoved).changes.toOption.isSome = true := by decide +kernel
  have little : (ofDocuments ⟨3, by decide⟩ (1 : Nat) shallowAndDeep
      shallowAndDeepMoved).fault.isSome = true := by decide +kernel
  obtain ⟨changes, completed⟩ := exists_ok_of_isSome enough
  obtain ⟨e, failed⟩ := Option.isSome_iff_exists.mp little
  obtain ⟨s, t, hs, ht, deep, first, -, -, crowded, crowded'⟩ :=
    capacity_decides (by decide) (by decide) completed failed
  exact ⟨s, t, changes, e, by decide, by decide, completed, failed, hs, ht, deep, first, crowded,
    crowded'⟩

end Comparison

end SchemaDrift
