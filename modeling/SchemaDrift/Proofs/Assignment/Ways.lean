import Mathlib
import SchemaDrift.Assignment.Search

/-!
# One step of the search

What each operation on the known ways does to every column, for every sort of number.

* `Ways.way_extend`: extending all ways by a row improves the ways to the remaining columns and no
  others.
* `Ways.nearest_some` and `Ways.nearest_none`: the nearest column is one of the remaining ones with
  a known way, and there is one unless no way is known. In whole numbers, no known way is shorter
  (`Ways.nearest_le`).
* `Ways.settle_remaining`: settling a column takes just this one away from the remaining ones.
-/

namespace SchemaDrift.Assignment

/-! ## Arrays -/

section

variable {α : Type} (xs : Array α) (i j : Nat) (d : α)

theorem getD_setIfInBounds (a : α) :
    (xs.setIfInBounds i a).getD j d = if i = j ∧ i < xs.size then a else xs.getD j d := by
  simp only [Array.getD_eq_getD_getElem?, Array.getElem?_setIfInBounds]
  split <;> split <;> simp_all

theorem getD_modify (f : α → α) :
    (xs.modify i f).getD j d = if i = j ∧ i < xs.size then f (xs.getD j d) else xs.getD j d := by
  simp only [Array.getD_eq_getD_getElem?, Array.getElem?_modify]
  by_cases same : i = j
  · subst same
    by_cases inside : i < xs.size <;> simp [inside]
  · simp [same]

theorem getD_replicate (n : Nat) : (Array.replicate n d).getD j d = d := by
  simp only [Array.getD_eq_getD_getElem?, Array.getElem?_replicate]
  split <;> rfl

theorem getD_of_size_le (h : xs.size ≤ j) : xs.getD j d = d := by
  rw [Array.getD_eq_getD_getElem?, Array.getElem?_eq_none h, Option.getD_none]

end

def entry {α : Type} (A : Arithmetic α) (costs : Array (Array α)) (row j : Nat) : α :=
  (costs.getD row #[]).getD j A.zero

namespace Ways

variable {α : Type} (A : Arithmetic α) (costs : Array (Array α)) (p : Stage α) (row : Nat)
  (base : α)

/-! ## Extending ways -/

/-- What is known of the way to a column: its length and the row from which it comes. -/
def way (start : Nat) (w : Ways α) (j : Nat) : Option α × Nat :=
  (w.length.getD j none, w.source.getD j start)

/-- The length of the way to a column that comes from the given row, reached after `base`. -/
def lengthBy (j : Nat) : α :=
  A.minus (A.minus (A.plus base (entry A costs row j)) (p.rowPrice.getD row A.zero))
    (p.columnPrice.getD j A.zero)

def isShorter (next : α) : Option α → Bool
  | some old => A.less next old
  | none => A.reachable next

/-- What is known of a way after one of length `next` was found that comes from `row`. -/
def improve (next : α) (old : Option α × Nat) : Option α × Nat :=
  if isShorter A next old.1 then (some next, row) else old

/-- The part of `extend` that is about one column. -/
def extendTo (w : Ways α) (j : Nat) : Ways α :=
  if isShorter A (lengthBy A costs p row base j) (w.length.getD j none) then
    { w with length := w.length.setIfInBounds j (some (lengthBy A costs p row base j)),
             source := w.source.setIfInBounds j row }
  else w

theorem extend_eq (w : Ways α) :
    w.extend A costs p row base = w.remaining.toList.foldl (extendTo A costs p row base) w := by
  unfold extend
  rw [← Array.foldl_toList]
  rfl

/-- Columns are settled and remain as before, and there is still room for the same columns. -/
structure SameColumns (w w' : Ways α) : Prop where
  lengths : w'.length.size = w.length.size
  sources : w'.source.size = w.source.size
  settled : w'.settled = w.settled
  remaining : w'.remaining = w.remaining

theorem SameColumns.refl (w : Ways α) : SameColumns w w := ⟨rfl, rfl, rfl, rfl⟩

theorem SameColumns.trans {w w' w'' : Ways α} (h : SameColumns w w') (k : SameColumns w' w'') :
    SameColumns w w'' :=
  ⟨k.lengths.trans h.lengths, k.sources.trans h.sources, k.settled.trans h.settled,
    k.remaining.trans h.remaining⟩

theorem extendTo_columns (w : Ways α) (j : Nat) :
    SameColumns w (extendTo A costs p row base w j) := by
  unfold extendTo
  split
  · exact ⟨Array.size_setIfInBounds, Array.size_setIfInBounds, rfl, rfl⟩
  · exact .refl w

theorem way_extendTo (start : Nat) {w : Ways α} {j : Nat} (hl : j < w.length.size)
    (hs : j < w.source.size) (i : Nat) :
    way start (extendTo A costs p row base w j) i =
      if i = j then improve A row (lengthBy A costs p row base j) (way start w j)
      else way start w i := by
  unfold extendTo improve
  show way start (if isShorter A (lengthBy A costs p row base j) (way start w j).1 then _ else _) i
    = _
  by_cases shorter : isShorter A (lengthBy A costs p row base j) (way start w j).1
  · rw [if_pos shorter, if_pos shorter]
    unfold way
    rw [getD_setIfInBounds, getD_setIfInBounds]
    by_cases same : i = j
    · subst same
      rw [if_pos ⟨rfl, hl⟩, if_pos ⟨rfl, hs⟩, if_pos rfl]
    · rw [if_neg fun h => same h.1.symm, if_neg fun h => same h.1.symm, if_neg same]
  · rw [if_neg shorter, if_neg shorter]
    split
    · next same => rw [same]
    · rfl

theorem foldl_extendTo_columns (l : List Nat) (w : Ways α) :
    SameColumns w (l.foldl (extendTo A costs p row base) w) := by
  induction l generalizing w with
  | nil => exact .refl w
  | cons j l ih => exact (extendTo_columns A costs p row base w j).trans (ih _)

theorem way_foldl_extendTo (start : Nat) {l : List Nat} (distinct : l.Nodup) {w : Ways α}
    (hl : ∀ j ∈ l, j < w.length.size) (hs : ∀ j ∈ l, j < w.source.size) (i : Nat) :
    way start (l.foldl (extendTo A costs p row base) w) i =
      if i ∈ l then improve A row (lengthBy A costs p row base i) (way start w i)
      else way start w i := by
  induction l generalizing w with
  | nil => rfl
  | cons j l ih =>
    have first := extendTo_columns A costs p row base w j
    have fresh : j ∉ l := (List.nodup_cons.mp distinct).1
    rw [List.foldl_cons, ih (List.nodup_cons.mp distinct).2
      (fun i hi => first.lengths ▸ hl i (List.mem_cons_of_mem j hi))
      (fun i hi => first.sources ▸ hs i (List.mem_cons_of_mem j hi)),
      way_extendTo A costs p row base start (hl j List.mem_cons_self) (hs j List.mem_cons_self)]
    by_cases same : i = j
    · subst same
      rw [if_neg fresh, if_pos rfl, if_pos List.mem_cons_self]
    · simp only [List.mem_cons, same, false_or, if_false]

theorem extend_columns (w : Ways α) : SameColumns w (w.extend A costs p row base) := by
  rw [extend_eq]
  exact foldl_extendTo_columns A costs p row base _ w

/-- Extending all ways by a row improves the ways to the remaining columns and no others. -/
theorem way_extend (start : Nat) {w : Ways α} (distinct : w.remaining.toList.Nodup)
    (hl : ∀ j ∈ w.remaining.toList, j < w.length.size)
    (hs : ∀ j ∈ w.remaining.toList, j < w.source.size) (j : Nat) :
    way start (w.extend A costs p row base) j =
      if j ∈ w.remaining.toList then
        improve A row (lengthBy A costs p row base j) (way start w j)
      else way start w j := by
  rw [extend_eq]
  exact way_foldl_extendTo A costs p row base start distinct hl hs j

/-! ## The nearest column -/

section

variable {A}

/-- The part of `nearest` that is about one place. -/
def consider (A : Arithmetic α) (w : Ways α) (isFree : Nat → Bool) (best : Option (Nearest α))
    (place : Nat) : Option (Nearest α) :=
  match w.length.getD (w.remaining.getD place 0) none, best with
  | none, best => best
  | some d, none => some ⟨place, w.remaining.getD place 0, d⟩
  | some d, some b =>
    if A.less d b.distance || (!A.less b.distance d && isFree (w.remaining.getD place 0)) then
      some ⟨place, w.remaining.getD place 0, d⟩
    else some b

theorem nearest_eq (w : Ways α) (isFree : Nat → Bool) :
    w.nearest A isFree = (List.range w.remaining.size).foldl (consider A w isFree) none := rfl

def lengthAt (w : Ways α) (place : Nat) : Option α :=
  w.length.getD (w.remaining.getD place 0) none

theorem lengthAt_eq {w : Ways α} {place : Nat} (below : place < w.remaining.toList.length) :
    w.lengthAt place = w.length.getD w.remaining.toList[place] none := by
  have there : w.remaining.getD place 0 = w.remaining.toList[place] := by
    rw [Array.getD_eq_getD_getElem?, Array.getElem?_eq_getElem below, Option.getD_some,
      Array.getElem_toList]
  rw [lengthAt, there]

/-- A remaining column and the length of its way, as `nearest` reports it. -/
structure Stands (w : Ways α) (b : Nearest α) : Prop where
  place : b.place < w.remaining.size
  column : w.remaining.getD b.place 0 = b.column
  distance : w.length.getD b.column none = some b.distance

theorem considered (w : Ways α) (isFree : Nat → Bool) (m : Nat) (hm : m ≤ w.remaining.size) :
    (∀ b, (List.range m).foldl (consider A w isFree) none = some b → Stands w b) ∧
      ((List.range m).foldl (consider A w isFree) none = none →
        ∀ place < m, w.lengthAt place = none) := by
  induction m with
  | zero => exact ⟨fun b h => (by cases h), fun _ place h => absurd h (Nat.not_lt_zero place)⟩
  | succ m ih =>
    rw [List.range_succ, List.foldl_append, List.foldl_cons, List.foldl_nil]
    obtain ⟨found, nothing⟩ := ih (Nat.le_of_succ_le hm)
    generalize (List.range m).foldl (consider A w isFree) none = best at found nothing ⊢
    unfold consider
    rcases known : w.length.getD (w.remaining.getD m 0) none with _ | d
    · refine ⟨found, fun h place below => ?_⟩
      rcases Nat.lt_succ_iff_lt_or_eq.mp below with below | rfl
      · exact nothing h place below
      · exact known
    · have here : Stands w ⟨m, w.remaining.getD m 0, d⟩ := ⟨hm, rfl, known⟩
      cases best with
      | none => exact ⟨fun b h => by cases h; exact here, fun h => by cases h⟩
      | some b =>
        dsimp only
        split
        · exact ⟨fun b h => by cases h; exact here, fun h => by cases h⟩
        · exact ⟨found, fun h => by cases h⟩

/-- The nearest column is one of the remaining ones, and a way to it is known. -/
theorem nearest_some {w : Ways α} {isFree : Nat → Bool} {b : Nearest α}
    (h : w.nearest A isFree = some b) : Stands w b :=
  (considered w isFree _ (Nat.le_refl _)).1 b h

/-- There is a nearest column unless no way is known. -/
theorem nearest_none {w : Ways α} {isFree : Nat → Bool} (h : w.nearest A isFree = none) {j : Nat}
    (hj : j ∈ w.remaining.toList) : w.length.getD j none = none := by
  obtain ⟨place, below, rfl⟩ := List.mem_iff_getElem.mp hj
  rw [← lengthAt_eq below]
  exact (considered w isFree _ (Nat.le_refl _)).2 h place below

end

theorem considered_le (w : Ways Int) (isFree : Nat → Bool) (m : Nat) (hm : m ≤ w.remaining.size)
    (b : Nearest Int) (h : (List.range m).foldl (consider .whole w isFree) none = some b) :
    ∀ place < m, ∀ d, w.lengthAt place = some d → b.distance ≤ d := by
  induction m generalizing b with
  | zero => exact fun place below => absurd below (Nat.not_lt_zero place)
  | succ m ih =>
    have nothing := (considered (A := .whole) w isFree m (Nat.le_of_succ_le hm)).2
    rw [List.range_succ, List.foldl_append, List.foldl_cons, List.foldl_nil] at h
    generalize (List.range m).foldl (consider .whole w isFree) none = best at h ih nothing
    intro place below d known
    have either := Nat.lt_succ_iff_lt_or_eq.mp below
    unfold consider at h
    rcases here : w.length.getD (w.remaining.getD m 0) none with _ | e
    · rw [here] at h
      rcases either with below | rfl
      · exact ih (Nat.le_of_succ_le hm) b h place below d known
      · cases here.symm.trans known
    · have last : place = m → d = e := by
        rintro rfl
        exact Option.some.inj (known.symm.trans here)
      rw [here] at h
      cases best with
      | none =>
        obtain rfl := Option.some.inj h
        rcases either with below | same
        · cases (nothing rfl place below).symm.trans known
        · exact Int.le_of_eq (last same).symm
      | some b' =>
        have before (below : place < m) : b'.distance ≤ d :=
          ih (Nat.le_of_succ_le hm) b' rfl place below d known
        simp only [Arithmetic.whole, Bool.or_eq_true, Bool.and_eq_true, Bool.not_eq_true',
          decide_eq_true_eq, decide_eq_false_iff_not] at h
        split at h <;> obtain rfl := Option.some.inj h <;> rcases either with below | same
        · have := before below
          dsimp only
          omega
        · exact Int.le_of_eq (last same).symm
        · exact before below
        · have := last same
          omega

/-- In whole numbers, no known way to a remaining column is shorter than the nearest. -/
theorem nearest_le {w : Ways Int} {isFree : Nat → Bool} {b : Nearest Int}
    (h : w.nearest .whole isFree = some b) {j : Nat} (hj : j ∈ w.remaining.toList) {d : Int}
    (known : w.length.getD j none = some d) : b.distance ≤ d := by
  obtain ⟨place, below, rfl⟩ := List.mem_iff_getElem.mp hj
  exact considered_le w isFree _ (Nat.le_refl _) b h place below d
    ((lengthAt_eq below).trans known)

/-! ## Settling a column -/

theorem set_dropLast_perm {l : List Nat} {place : Nat} (h : place < l.length) :
    (l[place] :: (l.set place (l.getLast?.getD 0)).dropLast).Perm l := by
  obtain ⟨front, last, rfl⟩ : ∃ front last, l = front ++ [last] :=
    ⟨_, _, (List.dropLast_append_getLast (List.ne_nil_of_length_pos (Nat.zero_lt_of_lt h))).symm⟩
  rw [List.getLast?_append_of_ne_nil _ (List.cons_ne_nil _ _), List.getLast?_singleton,
    Option.getD_some]
  rcases Nat.lt_or_ge place front.length with inside | outside
  · rw [List.set_append_left _ _ inside, List.dropLast_concat, List.getElem_append_left inside,
      List.set_eq_take_append_cons_drop, if_pos inside]
    have cut : front.take place ++ front[place] :: front.drop (place + 1) = front := by
      rw [List.getElem_cons_drop, List.take_append_drop]
    have moved : (last :: front[place] :: (front.take place ++ front.drop (place + 1))).Perm
        (front ++ [last]) :=
      ((List.perm_middle.symm.trans (.of_eq cut)).cons last).trans
        (List.perm_append_singleton last front).symm
    exact ((List.perm_middle.cons _).trans (.swap ..)).trans moved
  · obtain rfl : place = front.length := by
      rw [List.length_append, List.length_singleton] at h
      omega
    rw [List.set_append_right _ _ outside, Nat.sub_self, List.set_cons_zero, List.dropLast_concat,
      List.getElem_concat_length rfl]
    exact (List.perm_append_singleton last front).symm

/-- Settling a column takes just this one away from the remaining ones. -/
theorem settle_remaining (w : Ways α) {place column : Nat} (h : place < w.remaining.size)
    (there : w.remaining.getD place 0 = column) :
    (column :: (w.settle place column).remaining.toList).Perm w.remaining.toList := by
  have moved := set_dropLast_perm (l := w.remaining.toList) h
  have first : w.remaining.toList[place] = column := by
    rw [← there, Array.getD_eq_getD_getElem?, Array.getElem?_eq_getElem h, Option.getD_some,
      Array.getElem_toList]
  rw [first] at moved
  show (column :: ((w.remaining.setIfInBounds place (w.remaining.back?.getD 0)).pop).toList).Perm _
  rw [Array.toList_pop, Array.toList_setIfInBounds, ← Array.getLast?_toList]
  exact moved

end Ways

end SchemaDrift.Assignment
