import SchemaDrift.Proofs.Assignment
import SchemaDrift.Proofs.Assignment.Ways

/-!
# The search gives out every column once

Whatever the sort of number, and also where sums are rounded, an assignment that the search
proposes gives every row a column of its own.

A search for a free column settles columns that are owned until it meets a free one, and the way
to each comes from a row that was reached before: the starting row or the owner of a column that
was settled earlier. The columns can therefore be handed on along the ways. While this is done one
column is vacant, and all rows but the last own another.

* `Ways.Sound` is what every step of a search keeps, and `findFree_ends` carries an invariant of
  the steps to the end of a search.
* `Stage.Matches`: the rows taken up so far own a column each.
* `reassign_matches`: handing on the columns gives one to the starting row, too.
* `propose_perm`: the assignment proposed is a permutation of the columns.
-/

namespace SchemaDrift.Assignment

variable {α : Type}

/-! ## Rows that a search reaches -/

/-- Whether a search has come to a row: it started there or settled a column that the row owns. -/
def Reached (owner : Array (Option Nat)) (start : Nat) (settled : List Nat) (row : Nat) : Prop :=
  row = start ∨ ∃ j ∈ settled, owner.getD j none = some row

/-- Whether the way to each of the settled columns, the last of which stands first, comes from a
row that had been reached before. -/
def Chained (owner : Array (Option Nat)) (start : Nat) (source : Array Nat) : List Nat → Prop
  | [] => True
  | j :: js => Reached owner start js (source.getD j start) ∧ Chained owner start source js

theorem Reached.mono {owner : Array (Option Nat)} {start row : Nat} {js ks : List Nat}
    (sub : ∀ j ∈ js, j ∈ ks) (h : Reached owner start js row) : Reached owner start ks row := by
  rcases h with rfl | ⟨j, hj, owned⟩
  · exact .inl rfl
  · exact .inr ⟨j, sub j hj, owned⟩

theorem Reached.of_cons {owner : Array (Option Nat)} {start row next j : Nat} {js : List Nat}
    (owned : owner.getD j none = some next) (h : Reached owner start (j :: js) row) :
    Reached owner start js row ∨ row = next := by
  rcases h with rfl | ⟨k, hk, owns⟩
  · exact .inl (.inl rfl)
  · rcases List.mem_cons.mp hk with rfl | hk
    · exact .inr (Option.some.inj (owns.symm.trans owned))
    · exact .inl (.inr ⟨k, hk, owns⟩)

theorem Reached.congr {owner owner' : Array (Option Nat)} {start row : Nat} {js : List Nat}
    (same : ∀ j ∈ js, owner'.getD j none = owner.getD j none) (h : Reached owner start js row) :
    Reached owner' start js row := by
  rcases h with rfl | ⟨j, hj, owned⟩
  · exact .inl rfl
  · exact .inr ⟨j, hj, (same j hj).trans owned⟩

theorem Chained.congr {owner owner' : Array (Option Nat)} {start : Nat} {source source' : Array Nat}
    {js : List Nat} (owners : ∀ j ∈ js, owner'.getD j none = owner.getD j none)
    (sources : ∀ j ∈ js, source'.getD j start = source.getD j start)
    (h : Chained owner start source js) : Chained owner' start source' js := by
  induction js with
  | nil => trivial
  | cons j js ih =>
    have behind : ∀ k ∈ js, owner'.getD k none = owner.getD k none :=
      fun k hk => owners k (List.mem_cons_of_mem j hk)
    refine ⟨?_, ih behind (fun k hk => sources k (List.mem_cons_of_mem j hk)) h.2⟩
    rw [sources j List.mem_cons_self]
    exact h.1.congr behind

theorem Chained.of_append {owner : Array (Option Nat)} {start : Nat} {source : Array Nat}
    {js ks : List Nat} (h : Chained owner start source (js ++ ks)) :
    Chained owner start source ks := by
  induction js with
  | nil => exact h
  | cons j js ih => exact ih h.2

/-! ## The steps of a search -/

namespace Ways

/-- What is true of the ways in every state of a search: each column is settled or remains, the
settled ones are owned, and all known ways come from rows that were reached. -/
structure Sound (n : Nat) (p : Stage α) (start : Nat) (w : Ways α) : Prop where
  lengths : w.length.size = n
  sources : w.source.size = n
  columns : (w.remaining.toList ++ w.settled).Perm (List.range n)
  owned : ∀ j ∈ w.settled, ∃ row, p.owner.getD j none = some row
  known : ∀ j ∈ w.remaining.toList, (way start w j).1 ≠ none →
    Reached p.owner start w.settled (way start w j).2
  chained : Chained p.owner start w.source w.settled

variable {n start : Nat} {p : Stage α} {w : Ways α}

theorem Sound.distinct (h : w.Sound n p start) : (w.remaining.toList ++ w.settled).Nodup :=
  h.columns.nodup_iff.mpr List.nodup_range

theorem Sound.mem_iff (h : w.Sound n p start) {j : Nat} :
    j ∈ w.remaining.toList ∨ j ∈ w.settled ↔ j < n := by
  rw [← List.mem_append, h.columns.mem_iff, List.mem_range]

theorem Sound.not_remaining (h : w.Sound n p start) {j : Nat} (hj : j ∈ w.settled) :
    j ∉ w.remaining.toList :=
  fun other => (List.nodup_append.mp h.distinct).2.2 j other j hj rfl

theorem fresh_sound (n : Nat) (p : Stage α) (start : Nat) :
    (fresh n start : Ways α).Sound n p start where
  lengths := Array.size_replicate
  sources := Array.size_replicate
  columns := by
    simp only [fresh, Array.toList_reverse, Array.toList_range, List.append_nil]
    exact List.reverse_perm _
  owned := fun j hj => absurd hj List.not_mem_nil
  known := fun j _ known => absurd (getD_replicate j none n) known
  chained := trivial

/-- What the ways are after they are extended by a row. -/
theorem Sound.way_extend (h : w.Sound n p start) (A : Arithmetic α) (costs : Array (Array α))
    (row : Nat) (base : α) (j : Nat) :
    way start (w.extend A costs p row base) j =
      if j ∈ w.remaining.toList then
        improve A row (lengthBy A costs p row base j) (way start w j)
      else way start w j :=
  Ways.way_extend A costs p row base start (List.nodup_append.mp h.distinct).1
    (fun j hj => by rw [h.lengths]; exact h.mem_iff.mp (.inl hj))
    (fun j hj => by rw [h.sources]; exact h.mem_iff.mp (.inl hj)) j

theorem Sound.extend (h : w.Sound n p start) (A : Arithmetic α) (costs : Array (Array α))
    {row : Nat} (base : α) (reached : Reached p.owner start w.settled row) :
    (w.extend A costs p row base).Sound n p start := by
  have same := extend_columns A costs p row base w
  have ways := h.way_extend A costs row base
  refine ⟨same.lengths.trans h.lengths, same.sources.trans h.sources, ?_, ?_, ?_, ?_⟩ <;>
    rw [same.settled]
  · rw [same.remaining]
    exact h.columns
  · exact h.owned
  · intro j hj known
    rw [same.remaining] at hj
    rw [ways j, if_pos hj] at known ⊢
    unfold improve at known ⊢
    split at known
    · next shorter =>
      rw [if_pos shorter]
      exact reached
    · next longer =>
      rw [if_neg longer]
      exact h.known j hj known
  · refine h.chained.congr (fun _ _ => rfl) fun j hj => ?_
    have kept := ways j
    rw [if_neg (h.not_remaining hj)] at kept
    exact congrArg Prod.snd kept

theorem Stands.mem {b : Nearest α} (h : Stands w b) : b.column ∈ w.remaining.toList := by
  rw [← h.column, Array.getD_eq_getD_getElem?, Array.getElem?_eq_getElem h.place,
    Option.getD_some]
  exact Array.getElem_mem_toList h.place

theorem Stands.settle {b : Nearest α} (h : Stands w b) :
    (b.column :: (w.settle b.place b.column).remaining.toList).Perm w.remaining.toList :=
  settle_remaining w h.place h.column

theorem Stands.chained (h : w.Sound n p start) {b : Nearest α} (stands : Stands w b) :
    Chained p.owner start w.source (b.column :: w.settled) := by
  refine ⟨h.known b.column stands.mem ?_, h.chained⟩
  show w.length.getD b.column none ≠ none
  rw [stands.distance]
  exact Option.some_ne_none _

theorem Stands.columns (h : w.Sound n p start) {b : Nearest α} (stands : Stands w b) :
    ((w.settle b.place b.column).remaining.toList ++ b.column :: w.settled).Perm
      (List.range n) :=
  (List.perm_middle.trans (stands.settle.append_right w.settled)).trans h.columns

theorem Sound.settle (h : w.Sound n p start) {b : Nearest α} (stands : Stands w b) {next : Nat}
    (owned : p.owner.getD b.column none = some next) :
    (w.settle b.place b.column).Sound n p start where
  lengths := h.lengths
  sources := h.sources
  columns := stands.columns h
  owned := by
    intro j hj
    rcases List.mem_cons.mp hj with rfl | hj
    · exact ⟨next, owned⟩
    · exact h.owned j hj
  known := by
    intro j hj known
    have before := stands.settle.mem_iff.mp (List.mem_cons_of_mem b.column hj)
    exact (h.known j before known).mono fun k hk => List.mem_cons_of_mem b.column hk
  chained := stands.chained h

end Ways

/-! ## A whole search -/

section

variable {A : Arithmetic α} {costs : Array (Array α)} {p : Stage α}

/-- An invariant of the extended ways holds when a search meets a free column. -/
theorem findFree_ends {I : Ways α → Prop}
    (step : ∀ w b next, I w → w.nearest A (fun j => (p.owner.getD j none).isNone) = some b →
      p.owner.getD b.column none = some next →
      I ((w.settle b.place b.column).extend A costs p next b.distance))
    {fuel row : Nat} {base : α} {w : Ways α} (h : I (w.extend A costs p row base))
    {f : Found α} (found : findFree A costs p fuel row base w = some f) :
    ∃ w b, I w ∧ w.nearest A (fun j => (p.owner.getD j none).isNone) = some b ∧
      p.owner.getD b.column none = none ∧
      f = ⟨b.column, b.distance, w.settle b.place b.column⟩ := by
  induction fuel generalizing row base w with
  | zero => cases found
  | succ fuel ih =>
    unfold findFree at found
    dsimp only at found
    split at found
    · cases found
    · next b near =>
      split at found
      · next free => exact ⟨_, b, h, near, free, (Option.some.inj found).symm⟩
      · next next owned => exact ih (step _ b next h near owned) found

/-- A search in which some way is always known meets a free column, since every step takes away a
remaining one. -/
theorem findFree_ne_none {I : Ways α → Prop}
    (step : ∀ w b next, I w → w.nearest A (fun j => (p.owner.getD j none).isNone) = some b →
      p.owner.getD b.column none = some next →
      I ((w.settle b.place b.column).extend A costs p next b.distance))
    (goes_on : ∀ w, I w → w.nearest A (fun j => (p.owner.getD j none).isNone) ≠ none)
    {fuel row : Nat} {base : α} {w : Ways α} (h : I (w.extend A costs p row base))
    (enough : w.remaining.size ≤ fuel) : findFree A costs p fuel row base w ≠ none := by
  induction fuel generalizing row base w with
  | zero =>
    obtain ⟨b, near⟩ := Option.ne_none_iff_exists'.mp (goes_on _ h)
    have place := (Ways.nearest_some near).place
    rw [(Ways.extend_columns A costs p row base w).remaining] at place
    omega
  | succ fuel ih =>
    obtain ⟨b, near⟩ := Option.ne_none_iff_exists'.mp (goes_on _ h)
    have fewer := (Ways.nearest_some near).settle.length_eq
    rw [List.length_cons, Array.length_toList, Array.length_toList,
      (Ways.extend_columns A costs p row base w).remaining] at fewer
    unfold findFree
    simp only [near]
    rcases owned : p.owner.getD b.column none with _ | next
    · exact Option.some_ne_none _
    · exact ih (step _ b next h near owned) (by omega)

/-- What is true of the ways to a free column: the other settled columns are owned, and all ways
come from rows that were reached. -/
structure Found.Sound (n : Nat) (p : Stage α) (start : Nat) (f : Found α) : Prop where
  settled : ∃ others, f.ways.settled = f.column :: others ∧
    ∀ j ∈ others, ∃ row, p.owner.getD j none = some row
  free : p.owner.getD f.column none = none
  distinct : f.ways.settled.Nodup
  inside : ∀ j ∈ f.ways.settled, j < n
  chained : Chained p.owner start f.ways.source f.ways.settled

theorem Ways.Sound.found {n start : Nat} {w : Ways α} (h : w.Sound n p start) {b : Nearest α}
    (stands : w.Stands b) (free : p.owner.getD b.column none = none) :
    Found.Sound n p start ⟨b.column, b.distance, w.settle b.place b.column⟩ where
  settled := ⟨w.settled, rfl, h.owned⟩
  free := free
  distinct := (List.nodup_append.mp ((stands.columns h).nodup_iff.mpr List.nodup_range)).2.1
  inside := fun _ hj =>
    List.mem_range.mp ((stands.columns h).mem_iff.mp (List.mem_append_right _ hj))
  chained := stands.chained h

/-- Every step of a search keeps the ways sound. -/
theorem Ways.Sound.step {n start : Nat} {w : Ways α} (h : w.Sound n p start) {b : Nearest α}
    (stands : w.Stands b) {next : Nat} (owned : p.owner.getD b.column none = some next) :
    ((w.settle b.place b.column).extend A costs p next b.distance).Sound n p start :=
  (h.settle stands owned).extend A costs b.distance (.inr ⟨b.column, List.mem_cons_self, owned⟩)

theorem findFree_sound {n start fuel : Nat} {base : α} {f : Found α}
    (found : findFree A costs p fuel start base (.fresh n start) = some f) :
    f.Sound n p start := by
  obtain ⟨w, b, sound, near, free, rfl⟩ := findFree_ends
    (fun _ _ _ h near owned => h.step (Ways.nearest_some near) owned)
    ((Ways.fresh_sound n p start).extend A costs base (.inl rfl)) found
  exact sound.found (Ways.nearest_some near) free

end

/-! ## Handing on columns -/

namespace Stage

/-- Whether the rows of a list, and no others, own a column each, and every row stands in a given
relation to its column. -/
structure Matches (n : Nat) (T : Nat → Nat → Prop) (rows : List Nat) (p : Stage α) : Prop where
  owners : p.owner.size = n
  columns : p.columnOf.size = n
  owns : ∀ i ∈ rows, p.owner.getD (p.columnOf.getD i 0) none = some i
  owned : ∀ j i, p.owner.getD j none = some i → i ∈ rows ∧ p.columnOf.getD i 0 = j
  holds : ∀ i ∈ rows, T i (p.columnOf.getD i 0)

/-- The same while one column is vacant; the row that owned it owns another already. -/
structure Vacates (n : Nat) (T : Nat → Nat → Prop) (rows : List Nat) (vacant : Nat)
    (p : Stage α) : Prop where
  owners : p.owner.size = n
  columns : p.columnOf.size = n
  owns : ∀ i ∈ rows, p.columnOf.getD i 0 ≠ vacant ∧ p.owner.getD (p.columnOf.getD i 0) none = some i
  owned : ∀ j i, j ≠ vacant → p.owner.getD j none = some i → i ∈ rows ∧ p.columnOf.getD i 0 = j
  holds : ∀ i ∈ rows, T i (p.columnOf.getD i 0)

variable {n : Nat} {T : Nat → Nat → Prop} {rows : List Nat} {p : Stage α}

theorem Matches.vacates (h : p.Matches n T rows) {j : Nat} (free : p.owner.getD j none = none) :
    p.Vacates n T rows j where
  owners := h.owners
  columns := h.columns
  owns := by
    refine fun i hi => ⟨fun same => ?_, h.owns i hi⟩
    have owned := h.owns i hi
    rw [same, free] at owned
    cases owned
  owned := fun k i _ => h.owned k i
  holds := h.holds

def give (p : Stage α) (row column : Nat) : Stage α :=
  { p with owner := p.owner.setIfInBounds column (some row),
           columnOf := p.columnOf.setIfInBounds row column }

theorem reassign_succ (source : Array Nat) (start fuel column : Nat) (p : Stage α) :
    reassign source start (fuel + 1) column p =
      if source.getD column start = start then p.give (source.getD column start) column
      else reassign source start fuel (p.columnOf.getD (source.getD column start) 0)
        (p.give (source.getD column start) column) := rfl

theorem owner_give {column : Nat} (h : column < p.owner.size) (row j : Nat) :
    (p.give row column).owner.getD j none =
      if column = j then some row else p.owner.getD j none := by
  show (p.owner.setIfInBounds column (some row)).getD j none = _
  rw [getD_setIfInBounds]
  simp only [h, and_true]

theorem columnOf_give {row : Nat} (h : row < p.columnOf.size) (column i : Nat) :
    (p.give row column).columnOf.getD i 0 =
      if row = i then column else p.columnOf.getD i 0 := by
  show (p.columnOf.setIfInBounds row column).getD i 0 = _
  rw [getD_setIfInBounds]
  simp only [h, and_true]

/-- Once the vacant column is given to a row without one, it has an owner again. -/
theorem Vacates.give_new {vacant row : Nat} (h : p.Vacates n T rows vacant) (hv : vacant < n)
    (hr : row < n) (new : row ∉ rows) (holds : T row vacant) :
    (p.give row vacant).Matches n T (row :: rows) := by
  have owner := owner_give (h.owners ▸ hv) row
  have columnOf := columnOf_give (h.columns ▸ hr) vacant
  have kept : ∀ i ∈ rows, (p.give row vacant).columnOf.getD i 0 = p.columnOf.getD i 0 :=
    fun i hi => by rw [columnOf, if_neg fun same : row = i => new (same ▸ hi)]
  refine ⟨Array.size_setIfInBounds.trans h.owners, Array.size_setIfInBounds.trans h.columns,
    ?_, ?_, ?_⟩
  · intro i hi
    rcases List.mem_cons.mp hi with rfl | hi
    · rw [columnOf, if_pos rfl, owner, if_pos rfl]
    · rw [kept i hi, owner, if_neg fun same => (h.owns i hi).1 same.symm]
      exact (h.owns i hi).2
  · intro j i owned
    rw [owner] at owned
    split at owned
    · next same =>
      obtain rfl := Option.some.inj owned
      exact ⟨List.mem_cons_self, by rw [columnOf, if_pos rfl, same]⟩
    · next other =>
      obtain ⟨hi, column⟩ := h.owned j i (fun same => other same.symm) owned
      exact ⟨List.mem_cons_of_mem row hi, by rw [kept i hi, column]⟩
  · intro i hi
    rcases List.mem_cons.mp hi with rfl | hi
    · rw [columnOf, if_pos rfl]
      exact holds
    · rw [kept i hi]
      exact h.holds i hi

/-- If the vacant column is given to a row that has one, that one becomes vacant. -/
theorem Vacates.give_owner {vacant row : Nat} (h : p.Vacates n T rows vacant) (hv : vacant < n)
    (hr : row < n) (old : row ∈ rows) (holds : T row vacant) :
    (p.give row vacant).Vacates n T rows (p.columnOf.getD row 0) := by
  have owner := owner_give (h.owners ▸ hv) row
  have columnOf := columnOf_give (h.columns ▸ hr) vacant
  refine ⟨Array.size_setIfInBounds.trans h.owners, Array.size_setIfInBounds.trans h.columns,
    ?_, ?_, ?_⟩
  · intro i hi
    by_cases same : row = i
    · subst same
      rw [columnOf, if_pos rfl, owner, if_pos rfl]
      exact ⟨fun same => (h.owns row hi).1 same.symm, rfl⟩
    · rw [columnOf, if_neg same, owner, if_neg fun same => (h.owns i hi).1 same.symm]
      refine ⟨fun shared => same ?_, (h.owns i hi).2⟩
      have both := (h.owns i hi).2
      rw [shared, (h.owns row old).2] at both
      exact Option.some.inj both
  · intro j i other owned
    rw [owner] at owned
    split at owned
    · next same =>
      obtain rfl := Option.some.inj owned
      exact ⟨old, by rw [columnOf, if_pos rfl, same]⟩
    · next elsewhere =>
      obtain ⟨hi, column⟩ := h.owned j i (fun same => elsewhere same.symm) owned
      refine ⟨hi, ?_⟩
      rw [columnOf, if_neg ?_, column]
      rintro rfl
      exact other column.symm
  · intro i hi
    rw [columnOf]
    split
    · next same => exact same ▸ holds
    · exact h.holds i hi

/-- Handing on the columns along the ways to a vacant one gives a column to the starting row. -/
theorem reassign_matches {source : Array Nat} {start : Nat} (hstart : start < n)
    (new : start ∉ rows) (hrows : ∀ i ∈ rows, i < n) {fuel vacant : Nat} {js : List Nat}
    (h : p.Vacates n T rows vacant) (chained : Chained p.owner start source (vacant :: js))
    (distinct : (vacant :: js).Nodup)
    (holds : ∀ j ∈ vacant :: js, j < n ∧ T (source.getD j start) j) (enough : js.length < fuel) :
    (reassign source start fuel vacant p).Matches n T (start :: rows) := by
  induction fuel generalizing p vacant js with
  | zero => exact absurd enough (Nat.not_lt_zero _)
  | succ fuel ih =>
    obtain ⟨hv, tight⟩ := holds vacant List.mem_cons_self
    rw [reassign_succ]
    by_cases arrived : source.getD vacant start = start
    · rw [if_pos arrived, arrived]
      rw [arrived] at tight
      exact h.give_new hv hstart new tight
    · rw [if_neg arrived]
      rcases chained.1 with first | ⟨j, hj, owned⟩
      · exact absurd first arrived
      have behind : ∀ k ∈ js, vacant ≠ k :=
        fun k hk same => (List.nodup_cons.mp distinct).1 (same ▸ hk)
      obtain ⟨old, column⟩ := h.owned j _ (fun same => behind j hj same.symm) owned
      obtain ⟨front, rest, rfl⟩ := List.append_of_mem hj
      have kept := h.give_owner hv (hrows _ old) old tight
      rw [column] at kept ⊢
      have sub : ∀ k ∈ j :: rest, k ∈ front ++ j :: rest :=
        fun k hk => List.mem_append_right front hk
      refine ih kept (chained.2.of_append.congr (fun k hk => ?_) fun _ _ => rfl)
        (List.nodup_append.mp (List.nodup_cons.mp distinct).2).2.1
        (fun k hk => holds k (List.mem_cons_of_mem vacant (sub k hk))) ?_
      · rw [owner_give (h.owners ▸ hv), if_neg (behind k (sub k hk))]
      · rw [List.length_append, List.length_cons] at enough
        omega

/-- A search that was sound gives a column to the starting row, whatever the prices are. -/
theorem Matches.reassign {start : Nat} {f : Found α} (sound : f.Sound n p start)
    (hstart : start < n) (new : start ∉ rows) (hrows : ∀ i ∈ rows, i < n)
    (h : p.Matches n T rows)
    (tight : ∀ j ∈ f.ways.settled, T (f.ways.source.getD j start) j) :
    (Stage.reassign f.ways.source start n f.column p).Matches n T (start :: rows) := by
  obtain ⟨others, settled, -⟩ := sound.settled
  have inside := sound.inside
  have distinct := sound.distinct
  have chained := sound.chained
  rw [settled] at inside distinct chained tight
  have enough : (f.column :: others).length ≤ (List.range n).length :=
    (distinct.subperm fun j hj => List.mem_range.mpr (inside j hj)).length_le
  rw [List.length_range, List.length_cons] at enough
  exact reassign_matches hstart new hrows (h.vacates sound.free) chained distinct
    (fun j hj => ⟨inside j hj, tight j hj⟩) enough

/-! ## Taking up rows -/

section

variable {A : Arithmetic α} {costs : Array (Array α)}

/-- What a change of prices leaves alone. -/
structure SameOwners (p q : Stage α) : Prop where
  owner : q.owner = p.owner
  columnOf : q.columnOf = p.columnOf
  rows : q.rowPrice.size = p.rowPrice.size
  columns : q.columnPrice.size = p.columnPrice.size

theorem SameOwners.refl (p : Stage α) : SameOwners p p := ⟨rfl, rfl, rfl, rfl⟩

theorem SameOwners.trans {p q r : Stage α} (h : SameOwners p q) (k : SameOwners q r) :
    SameOwners p r :=
  ⟨k.owner.trans h.owner, k.columnOf.trans h.columnOf, k.rows.trans h.rows,
    k.columns.trans h.columns⟩

/-- The part of `reprice` that is about one settled column. -/
def repriceColumn (A : Arithmetic α) (found : Found α) (p : Stage α) (j : Nat) : Stage α :=
  match found.ways.length.getD j none with
  | none => p
  | some d =>
    let slack := A.minus found.distance d
    let p := { p with columnPrice := p.columnPrice.modify j (A.minus · slack) }
    match p.owner.getD j none with
    | some row => { p with rowPrice := p.rowPrice.modify row (A.plus · slack) }
    | none => p

theorem reprice_eq (p : Stage α) (start : Nat) (f : Found α) :
    p.reprice A start f = f.ways.settled.foldl (repriceColumn A f)
      { p with rowPrice := p.rowPrice.modify start (A.plus · f.distance) } := rfl

theorem repriceColumn_owners (f : Found α) (p : Stage α) (j : Nat) :
    SameOwners p (repriceColumn A f p j) := by
  unfold repriceColumn
  split
  · exact .refl p
  · dsimp only
    split
    · exact ⟨rfl, rfl, Array.size_modify, Array.size_modify⟩
    · exact ⟨rfl, rfl, rfl, Array.size_modify⟩

theorem foldl_repriceColumn_owners (f : Found α) (js : List Nat) (p : Stage α) :
    SameOwners p (js.foldl (repriceColumn A f) p) := by
  induction js generalizing p with
  | nil => exact .refl p
  | cons j js ih => exact (repriceColumn_owners f p j).trans (ih _)

theorem reprice_owners (p : Stage α) (start : Nat) (f : Found α) :
    SameOwners p (p.reprice A start f) := by
  have first : SameOwners p { p with rowPrice := p.rowPrice.modify start (A.plus · f.distance) } :=
    ⟨rfl, rfl, Array.size_modify, rfl⟩
  exact first.trans (foldl_repriceColumn_owners f f.ways.settled _)

section

variable {f : Found α} {q : Stage α} {j : Nat}

theorem repriceColumn_columnPrice {d : α} (known : f.ways.length.getD j none = some d)
    (hj : j < q.columnPrice.size) (k : Nat) :
    (repriceColumn A f q j).columnPrice.getD k A.zero =
      if j = k then A.minus (q.columnPrice.getD k A.zero) (A.minus f.distance d)
      else q.columnPrice.getD k A.zero := by
  have changed : (repriceColumn A f q j).columnPrice =
      q.columnPrice.modify j (A.minus · (A.minus f.distance d)) := by
    unfold repriceColumn
    rw [known]
    dsimp only
    split <;> rfl
  rw [changed, getD_modify]
  simp only [hj, and_true]

theorem repriceColumn_rowPrice {d : α} (known : f.ways.length.getD j none = some d)
    (inside : ∀ i, q.owner.getD j none = some i → i < q.rowPrice.size) (i : Nat) :
    (repriceColumn A f q j).rowPrice.getD i A.zero =
      if q.owner.getD j none = some i then
        A.plus (q.rowPrice.getD i A.zero) (A.minus f.distance d)
      else q.rowPrice.getD i A.zero := by
  unfold repriceColumn
  rw [known]
  dsimp only
  rcases owned : q.owner.getD j none with _ | row
  · rw [if_neg (Option.some_ne_none i).symm]
  · show (q.rowPrice.modify row (A.plus · (A.minus f.distance d))).getD i A.zero = _
    rw [getD_modify]
    simp only [inside row owned, and_true, Option.some.injEq]

variable {d : Nat → α} {js : List Nat}

theorem foldl_columnPrice (distinct : js.Nodup)
    (known : ∀ j ∈ js, f.ways.length.getD j none = some (d j))
    (inside : ∀ j ∈ js, j < q.columnPrice.size) (k : Nat) :
    (js.foldl (repriceColumn A f) q).columnPrice.getD k A.zero =
      if k ∈ js then A.minus (q.columnPrice.getD k A.zero) (A.minus f.distance (d k))
      else q.columnPrice.getD k A.zero := by
  induction js generalizing q with
  | nil => rfl
  | cons j js ih =>
    have size := (repriceColumn_owners (A := A) f q j).columns
    rw [List.foldl_cons, ih (List.nodup_cons.mp distinct).2
      (fun k hk => known k (List.mem_cons_of_mem j hk))
      (fun k hk => size ▸ inside k (List.mem_cons_of_mem j hk)),
      repriceColumn_columnPrice (known j List.mem_cons_self) (inside j List.mem_cons_self)]
    by_cases same : j = k
    · subst same
      rw [if_neg (List.nodup_cons.mp distinct).1, if_pos rfl, if_pos List.mem_cons_self]
    · simp only [if_neg same, List.mem_cons, Ne.symm same, false_or]

theorem foldl_rowPrice (distinct : js.Nodup)
    (known : ∀ j ∈ js, f.ways.length.getD j none = some (d j))
    (inside : ∀ j ∈ js, ∀ i, q.owner.getD j none = some i → i < q.rowPrice.size) {i c : Nat}
    (only : ∀ j, q.owner.getD j none = some i → j = c) :
    (js.foldl (repriceColumn A f) q).rowPrice.getD i A.zero =
      if c ∈ js ∧ q.owner.getD c none = some i then
        A.plus (q.rowPrice.getD i A.zero) (A.minus f.distance (d c))
      else q.rowPrice.getD i A.zero := by
  induction js generalizing q with
  | nil => rw [if_neg fun h => List.not_mem_nil h.1]; rfl
  | cons j js ih =>
    have same := repriceColumn_owners (A := A) f q j
    rw [List.foldl_cons, ih (List.nodup_cons.mp distinct).2
      (fun k hk => known k (List.mem_cons_of_mem j hk))
      (fun k hk i owned => same.rows ▸ inside k (List.mem_cons_of_mem j hk) i (same.owner ▸ owned))
      (fun k owned => only k (same.owner ▸ owned)), same.owner,
      repriceColumn_rowPrice (known j List.mem_cons_self) (inside j List.mem_cons_self)]
    by_cases owned : q.owner.getD j none = some i
    · obtain rfl := only j owned
      rw [if_neg fun h => (List.nodup_cons.mp distinct).1 h.1, if_pos owned,
        if_pos ⟨List.mem_cons_self, owned⟩]
    · have other : c ≠ j ∨ q.owner.getD c none ≠ some i := by
        by_cases same : c = j
        · exact .inr (same ▸ owned)
        · exact .inl same
      rw [if_neg owned]
      refine if_congr ?_ rfl rfl
      rw [List.mem_cons]
      tauto

/-- How the prices of columns change; `d` is the length of the way to each settled column. -/
theorem columnPrice_reprice (start : Nat) (distinct : f.ways.settled.Nodup)
    (known : ∀ j ∈ f.ways.settled, f.ways.length.getD j none = some (d j))
    (inside : ∀ j ∈ f.ways.settled, j < q.columnPrice.size) (k : Nat) :
    (q.reprice A start f).columnPrice.getD k A.zero =
      if k ∈ f.ways.settled then A.minus (q.columnPrice.getD k A.zero) (A.minus f.distance (d k))
      else q.columnPrice.getD k A.zero := by
  rw [reprice_eq]
  exact foldl_columnPrice (A := A)
    (q := { q with rowPrice := q.rowPrice.modify start (A.plus · f.distance) }) distinct known
    inside k

/-- How the price of a row changes that owns no column but perhaps the given one. -/
theorem rowPrice_reprice {start : Nat} (distinct : f.ways.settled.Nodup)
    (known : ∀ j ∈ f.ways.settled, f.ways.length.getD j none = some (d j))
    (inside : ∀ j ∈ f.ways.settled, ∀ i, q.owner.getD j none = some i → i < q.rowPrice.size)
    (hstart : start < q.rowPrice.size) {i c : Nat}
    (only : ∀ j, q.owner.getD j none = some i → j = c) :
    (q.reprice A start f).rowPrice.getD i A.zero =
      if c ∈ f.ways.settled ∧ q.owner.getD c none = some i then
        A.plus (if start = i then A.plus (q.rowPrice.getD i A.zero) f.distance
          else q.rowPrice.getD i A.zero) (A.minus f.distance (d c))
      else if start = i then A.plus (q.rowPrice.getD i A.zero) f.distance
        else q.rowPrice.getD i A.zero := by
  have first : (q.rowPrice.modify start (A.plus · f.distance)).getD i A.zero =
      if start = i then A.plus (q.rowPrice.getD i A.zero) f.distance
      else q.rowPrice.getD i A.zero := by
    rw [getD_modify]
    simp only [hstart, and_true]
  have room : ∀ j ∈ f.ways.settled, ∀ i, q.owner.getD j none = some i →
      i < (q.rowPrice.modify start (A.plus · f.distance)).size := fun j hj i owned => by
    rw [Array.size_modify]
    exact inside j hj i owned
  rw [reprice_eq, foldl_rowPrice (A := A)
    (q := { q with rowPrice := q.rowPrice.modify start (A.plus · f.distance) }) distinct known room
    only]
  simp only [first]

end

theorem Matches.congr {q : Stage α} (h : p.Matches n T rows) (same : SameOwners p q) :
    q.Matches n T rows := by
  obtain ⟨owners, columns, owns, owned, holds⟩ := h
  rw [← same.owner] at owners owns owned
  rw [← same.columnOf] at columns owns owned holds
  exact ⟨owners, columns, owns, owned, holds⟩

theorem SameOwners.sound {start : Nat} {q : Stage α} {f : Found α} (same : SameOwners p q)
    (h : f.Sound n p start) : f.Sound n q start := by
  obtain ⟨settled, free, distinct, inside, chained⟩ := h
  rw [← same.owner] at settled free chained
  exact ⟨settled, free, distinct, inside, chained⟩

theorem takeUp_eq_some {start : Nat} {q : Stage α} (h : p.takeUp A costs start = some q) :
    ∃ f, findFree A costs p costs.size start A.zero (.fresh costs.size start) = some f ∧
      q = Stage.reassign f.ways.source start costs.size f.column (p.reprice A start f) := by
  obtain ⟨f, found, rfl⟩ := Option.map_eq_some_iff.mp h
  exact ⟨f, found, rfl⟩

/-- A row that was taken up owns a column, and so do those taken up before. -/
theorem takeUp_matches {start : Nat} (hstart : start < costs.size) (new : start ∉ rows)
    (hrows : ∀ i ∈ rows, i < costs.size) (h : p.Matches costs.size (fun _ _ => True) rows)
    {q : Stage α} (taken : p.takeUp A costs start = some q) :
    q.Matches costs.size (fun _ _ => True) (start :: rows) := by
  obtain ⟨f, found, rfl⟩ := takeUp_eq_some taken
  have same := reprice_owners (A := A) p start f
  exact (h.congr same).reassign (same.sound (findFree_sound found)) hstart new hrows
    fun _ _ => trivial

/-- What holds at first, and is kept whenever a new row is taken up, holds after all rows. -/
theorem takeUpAll_induct {P : List Nat → Stage α → Prop}
    (step : ∀ rows p start q, start < n → start ∉ rows → (∀ i ∈ rows, i < n) → P rows p →
      p.takeUp A costs start = some q → P (start :: rows) q)
    {todo : List Nat} (fresh : (todo.reverse ++ rows).Nodup)
    (inside : ∀ i ∈ todo.reverse ++ rows, i < n) (h : P rows p) {q : Stage α}
    (taken : p.takeUpAll A costs todo = some q) : P (todo.reverse ++ rows) q := by
  induction todo generalizing rows p with
  | nil =>
    obtain rfl := Option.some.inj taken
    exact h
  | cons start todo ih =>
    rw [List.reverse_cons, List.append_assoc, List.singleton_append] at fresh inside ⊢
    unfold takeUpAll at taken
    split at taken
    · next p' taken' =>
      refine ih fresh inside (step rows p start p' (inside start ?_) ?_ (fun i hi => inside i ?_) h
        taken') taken
      · exact List.mem_append_right _ List.mem_cons_self
      · exact (List.nodup_cons.mp (List.nodup_append.mp fresh).2.1).1
      · exact List.mem_append_right _ (List.mem_cons_of_mem start hi)
    · cases taken

end

/-- If every row owns a column, the columns of the rows are a permutation of all columns. -/
theorem Matches.perm (h : p.Matches n T rows) (all : ∀ i < n, i ∈ rows) :
    p.columnOf.toList.Perm (List.range n) := by
  have listed : p.columnOf.toList = (List.range n).map fun i => p.columnOf.getD i 0 := by
    refine List.ext_getElem (by simp [h.columns]) fun i below _ => ?_
    rw [List.getElem_map, List.getElem_range, Array.getElem_toList, Array.getD_eq_getD_getElem?,
      Array.getElem?_eq_getElem (Array.length_toList ▸ below), Option.getD_some]
  have owner (i : Nat) (hi : i ∈ List.range n) := h.owns i (all i (List.mem_range.mp hi))
  have distinct : ((List.range n).map fun i => p.columnOf.getD i 0).Nodup := by
    refine List.Nodup.map_on (fun i hi k hk same => ?_) List.nodup_range
    have both := owner i hi
    rw [same, owner k hk] at both
    exact (Option.some.inj both).symm
  have inside : ∀ j ∈ (List.range n).map fun i => p.columnOf.getD i 0, j ∈ List.range n := by
    intro j hj
    obtain ⟨i, hi, rfl⟩ := List.mem_map.mp hj
    refine List.mem_range.mpr (Nat.lt_of_not_le fun outside => ?_)
    have owned := owner i hi
    rw [getD_of_size_le _ _ _ (h.owners ▸ outside)] at owned
    cases owned
  rw [listed]
  exact (distinct.subperm inside).perm_of_length_le (by simp)

end Stage

/-! ## The assignment proposed -/

section

variable {A : Arithmetic α} {costs : List (List α)}

/-- The stage before any row is taken up. -/
def noStage (A : Arithmetic α) (n : Nat) : Stage α :=
  ⟨Array.replicate n A.zero, Array.replicate n A.zero, Array.replicate n none,
    Array.replicate n 0⟩

theorem propose_eq (A : Arithmetic α) (costs : List (List α)) :
    propose A costs = ((noStage A costs.length).takeUpAll A (costs.map List.toArray).toArray
      (List.range costs.length)).map fun p =>
        ⟨p.columnOf.toList, ⟨p.rowPrice.toList, p.columnPrice.toList⟩⟩ := rfl

theorem noStage_matches (A : Arithmetic α) (n : Nat) (T : Nat → Nat → Prop) :
    (noStage A n).Matches n T [] where
  owners := Array.size_replicate
  columns := Array.size_replicate
  owns := fun i hi => absurd hi List.not_mem_nil
  owned := by
    intro j i owned
    rw [noStage, getD_replicate] at owned
    cases owned
  holds := fun i hi => absurd hi List.not_mem_nil

theorem size_toArray (costs : List (List α)) :
    (costs.map List.toArray).toArray.size = costs.length := by
  rw [List.size_toArray, List.length_map]

theorem entry_toArray (A : Arithmetic α) (costs : List (List α)) (i j : Nat) :
    entry A (costs.map List.toArray).toArray i j = (costs.getD i []).getD j A.zero := by
  have row : (costs.map List.toArray).toArray.getD i #[] = (costs.getD i []).toArray := by
    rw [Array.getD_eq_getD_getElem?, List.getElem?_toArray, List.getElem?_map,
      List.getD_eq_getElem?_getD]
    cases costs[i]? <;> rfl
  rw [entry, row, Array.getD_eq_getD_getElem?, List.getElem?_toArray, ← List.getD_eq_getElem?_getD]

/-- The assignment proposed gives out every column once, whatever the sort of number. -/
theorem propose_perm {q : Proposal α} (proposed : propose A costs = some q) :
    q.columns.Perm (List.range costs.length) := by
  rw [propose_eq] at proposed
  obtain ⟨p, taken, rfl⟩ := Option.map_eq_some_iff.mp proposed
  have matched := Stage.takeUpAll_induct (n := costs.length)
    (P := fun rows p => p.Matches costs.length (fun _ _ => True) rows)
    (fun rows p start q hstart new hrows h taken => by
      rw [← size_toArray costs] at hstart hrows h ⊢
      exact Stage.takeUp_matches hstart new hrows h taken)
    (by simp [List.nodup_range]) (by simp) (noStage_matches A _ _) taken
  exact matched.perm (by simp)

end

end SchemaDrift.Assignment
