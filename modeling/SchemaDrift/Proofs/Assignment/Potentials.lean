import SchemaDrift.Proofs.Assignment.Matching

/-!
# In whole numbers the search proves its own assignment cheapest

The search keeps the prices of the rows taken up so far feasible: no entry of such a row is cheaper
than its two prices, and the entry that the row owns costs just these. A search for a free column
looks at lengths that are costs beyond the prices. It settles columns in the order of their
distance, and at its end the prices are changed by how much nearer than the free column a settled
column is.

* `Ways.Explored` is what the extended ways always are: the distance of a column is the least over
  all rows that were reached, it is attained, and no remaining column is nearer than a settled one.
  `Ways.advance` says what a step of the search changes, and `Ways.Explored.step` that it keeps this.
* `exists_found`: in whole numbers every search meets a free column.
* `Stage.feasible_reprice` and `Stage.tight_reprice` are what the change of prices keeps, and
  `Stage.takeUp_priced` is what taking up a row keeps.
* `propose_certified`: the search proposes an assignment, and its prices prove it cheapest, so
  that `Assignment.solve` never has to try all assignments.
-/

namespace SchemaDrift.Assignment

variable {costs : Array (Array Int)} {n start : Nat} {rows : List Nat} {p : Stage Int}

/-! ## Costs beyond the prices -/

/-- What an entry costs beyond the prices of its row and its column. -/
def Stage.surplus (costs : Array (Array Int)) (p : Stage Int) (i j : Nat) : Int :=
  entry .whole costs i j - p.rowPrice.getD i 0 - p.columnPrice.getD j 0

theorem lengthBy_whole (row : Nat) (base : Int) (j : Nat) :
    Ways.lengthBy .whole costs p row base j = base + p.surplus costs row j := by
  show base + entry .whole costs row j - p.rowPrice.getD row 0 - p.columnPrice.getD j 0 = _
  unfold Stage.surplus
  omega

/-- What is true of the rows taken up so far: each owns a column for just its price, and no entry
of theirs is cheaper than its price. -/
structure Stage.Priced (costs : Array (Array Int)) (n : Nat) (rows : List Nat) (p : Stage Int) :
    Prop where
  rowPrices : p.rowPrice.size = n
  columnPrices : p.columnPrice.size = n
  distinct : rows.Nodup
  inside : ∀ i ∈ rows, i < n
  matched : p.Matches n (fun i j => p.surplus costs i j = 0) rows
  feasible : ∀ i ∈ rows, ∀ j < n, 0 ≤ p.surplus costs i j

/-! ## Distances -/

namespace Ways

/-- The length of the way to a column. -/
def distance (w : Ways Int) (j : Nat) : Int := (w.length.getD j none).getD 0

/-- The length of the way to a row that was reached: it leads through the column of the row. -/
def rowDistance (p : Stage Int) (start : Nat) (w : Ways Int) (i : Nat) : Int :=
  if i = start then 0 else w.distance (p.columnOf.getD i 0)

/-- What is true of the ways after they were extended by all rows that were reached. -/
structure Explored (costs : Array (Array Int)) (n : Nat) (p : Stage Int) (start : Nat)
    (w : Ways Int) : Prop where
  known : ∀ j < n, w.length.getD j none = some (w.distance j)
  least : ∀ j < n, ∀ i, Reached p.owner start w.settled i →
    w.distance j ≤ rowDistance p start w i + p.surplus costs i j
  reached : ∀ j < n, Reached p.owner start w.settled (w.source.getD j start)
  attained : ∀ j < n, w.distance j =
    rowDistance p start w (w.source.getD j start) + p.surplus costs (w.source.getD j start) j
  ordered : ∀ j ∈ w.settled, ∀ k ∈ w.remaining.toList, w.distance j ≤ w.distance k

theorem rowDistance_start (w : Ways Int) : rowDistance p start w start = 0 := if_pos rfl

theorem explored_first (costs : Array (Array Int)) (n : Nat) (p : Stage Int) (start : Nat) :
    ((fresh n start).extend .whole costs p start 0).Explored costs n p start := by
  have same := extend_columns .whole costs p start 0 (fresh n start)
  have sound := fresh_sound n p start
  have first (j : Nat) (hj : j < n) : way start ((fresh n start).extend .whole costs p start 0) j =
      (some (p.surplus costs start j), start) := by
    have remains : j ∈ (fresh n start : Ways Int).remaining.toList :=
      (sound.mem_iff.mpr hj).resolve_right List.not_mem_nil
    have unknown : way start (fresh n start : Ways Int) j = (none, start) :=
      congrArg₂ Prod.mk (getD_replicate j none n) (getD_replicate j start n)
    rw [sound.way_extend, if_pos remains, unknown, lengthBy_whole, Int.zero_add]
    rfl
  have length (j : Nat) (hj : j < n) := congrArg Prod.fst (first j hj)
  have source (j : Nat) (hj : j < n) := congrArg Prod.snd (first j hj)
  dsimp only [way] at length source
  have distance (j : Nat) (hj : j < n) :
      ((fresh n start).extend .whole costs p start 0).distance j = p.surplus costs start j := by
    rw [Ways.distance, length j hj, Option.getD_some]
  refine ⟨?_, ?_, ?_, ?_, ?_⟩
  · intro j hj
    rw [distance j hj, length j hj]
  · rintro j hj i (rfl | ⟨k, hk, -⟩)
    · rw [distance j hj, rowDistance_start, Int.zero_add]
    · rw [same.settled] at hk
      exact absurd hk List.not_mem_nil
  · exact fun j hj => .inl (source j hj)
  · intro j hj
    rw [source j hj, distance j hj, rowDistance_start, Int.zero_add]
  · intro j hj
    rw [same.settled] at hj
    exact absurd hj List.not_mem_nil

/-- The row of a settled column is as far away as the column. -/
theorem rowDistance_of_owner (h : p.Priced costs n rows) (new : start ∉ rows) {w : Ways Int}
    {i j : Nat} (owned : p.owner.getD j none = some i) :
    rowDistance p start w i = w.distance j := by
  obtain ⟨hi, column⟩ := h.matched.owned j i owned
  rw [rowDistance, if_neg fun same : i = start => new (same ▸ hi), column]

/-- How the way to a column changes when all ways are extended by a row: it stays as it is, or it
remains and comes from the new row, if that makes it shorter. -/
inductive Change (costs : Array (Array Int)) (p : Stage Int) (start row : Nat) (base : Int)
    (w w' : Ways Int) (j : Nat) : Prop
  | kept (distance : w'.distance j = w.distance j)
      (source : w'.source.getD j start = w.source.getD j start)
      (near : j ∈ w.remaining.toList → w.distance j ≤ base + p.surplus costs row j)
  | shortened (remains : j ∈ w.remaining.toList)
      (distance : w'.distance j = base + p.surplus costs row j)
      (less : w'.distance j < w.distance j) (source : w'.source.getD j start = row)

theorem extend_change (costs : Array (Array Int)) {w : Ways Int} (sound : w.Sound n p start)
    (row : Nat) (base : Int) {j : Nat} (known : w.length.getD j none = some (w.distance j)) :
    let w' := w.extend .whole costs p row base
    w'.length.getD j none = some (w'.distance j) ∧ Change costs p start row base w w' j := by
  intro w'
  have after : way start w' j = _ := sound.way_extend .whole costs row base j
  have before : way start w j = (some (w.distance j), w.source.getD j start) :=
    congrArg (Prod.mk · _) known
  rw [before, lengthBy_whole] at after
  unfold improve at after
  simp only [isShorter, Arithmetic.whole, decide_eq_true_eq] at after
  have distance {d : Int} {i : Nat} (way : way start w' j = (some d, i)) :
      w'.length.getD j none = some d ∧ w'.distance j = d ∧ w'.source.getD j start = i := by
    have length : w'.length.getD j none = some d := congrArg Prod.fst way
    exact ⟨length, by rw [Ways.distance, length, Option.getD_some], congrArg Prod.snd way⟩
  split at after
  · next remains =>
    split at after
    · next shorter =>
      obtain ⟨length, same, source⟩ := distance after
      exact ⟨length.trans (congrArg some same.symm),
        .shortened remains same (same ▸ shorter) source⟩
    · next longer =>
      obtain ⟨length, same, source⟩ := distance after
      exact ⟨length.trans (congrArg some same.symm),
        .kept same source fun _ => Int.not_lt.mp longer⟩
  · next settled =>
    obtain ⟨length, same, source⟩ := distance after
    exact ⟨length.trans (congrArg some same.symm),
      .kept same source fun remains => absurd remains settled⟩

/-- The nearest column is as near as any that remains, and no settled one is farther away. -/
theorem nearest_between {w : Ways Int} (sound : w.Sound n p start)
    (explored : w.Explored costs n p start) {isFree : Nat → Bool} {b : Nearest Int}
    (near : w.nearest .whole isFree = some b) :
    w.distance b.column = b.distance ∧
      (∀ k ∈ w.remaining.toList, b.distance ≤ w.distance k) ∧
      ∀ j ∈ b.column :: w.settled, w.distance j ≤ b.distance := by
  have stands := nearest_some near
  have same : w.distance b.column = b.distance := by
    rw [Ways.distance, stands.distance, Option.getD_some]
  refine ⟨same, fun k hk => ?_, fun j hj => ?_⟩
  · exact nearest_le near hk (explored.known k (sound.mem_iff.mp (.inl hk)))
  · rcases List.mem_cons.mp hj with rfl | hj
    · exact Int.le_of_eq same
    · exact same ▸ explored.ordered j hj b.column stands.mem

/-- What a step to the next row does: the nearest column `b` is settled, settled columns and the rows
reached keep their distances, and the ways to the other columns may come from the next row. -/
structure Advance (costs : Array (Array Int)) (n : Nat) (p : Stage Int) (start : Nat)
    (w w' : Ways Int) (b : Nearest Int) (next : Nat) : Prop where
  settled : w'.settled = b.column :: w.settled
  remaining : w'.remaining = (w.settle b.place b.column).remaining
  known : ∀ j < n, w'.length.getD j none = some (w'.distance j)
  change : ∀ j < n, Change costs p start next b.distance (w.settle b.place b.column) w' j
  kept : ∀ j ∈ b.column :: w.settled, w'.distance j = w.distance j
  rowKept : ∀ i, Reached p.owner start (b.column :: w.settled) i →
    rowDistance p start w' i = rowDistance p start w i
  nextReached : Reached p.owner start (b.column :: w.settled) next
  nextDistance : rowDistance p start w' next = b.distance

section

variable {w w' : Ways Int} {isFree : Nat → Bool} {b : Nearest Int} {next : Nat}

theorem advance (h : p.Priced costs n rows) (new : start ∉ rows) (sound : w.Sound n p start)
    (explored : w.Explored costs n p start) (near : w.nearest .whole isFree = some b)
    (owned : p.owner.getD b.column none = some next) :
    Advance costs n p start w
      ((w.settle b.place b.column).extend .whole costs p next b.distance) b next := by
  have after : (w.settle b.place b.column).Sound n p start :=
    sound.settle (nearest_some near) owned
  have columns := extend_columns .whole costs p next b.distance (w.settle b.place b.column)
  have ways {j : Nat} (hj : j < n) := extend_change costs after next b.distance
    (explored.known j hj)
  dsimp only at ways
  generalize (w.settle b.place b.column).extend .whole costs p next b.distance = w'
    at columns ways ⊢
  have kept (j : Nat) (hj : j ∈ b.column :: w.settled) : w'.distance j = w.distance j := by
    rcases (ways (after.mem_iff.mp (.inr hj))).2 with ⟨distance⟩ | ⟨remains⟩
    · exact distance
    · exact absurd remains (after.not_remaining hj)
  have rowKept (i : Nat) (hi : Reached p.owner start (b.column :: w.settled) i) :
      rowDistance p start w' i = rowDistance p start w i := by
    rcases hi with rfl | ⟨j, hj, owned⟩
    · rw [rowDistance_start, rowDistance_start]
    · rw [rowDistance_of_owner h new owned, rowDistance_of_owner h new owned, kept j hj]
  have newest : Reached p.owner start (b.column :: w.settled) next :=
    .inr ⟨b.column, List.mem_cons_self, owned⟩
  refine ⟨columns.settled, columns.remaining, fun j hj => (ways hj).1, fun j hj => (ways hj).2,
    kept, rowKept, newest, ?_⟩
  rw [rowKept next newest, rowDistance_of_owner h new owned,
    (nearest_between sound explored near).1]

variable (step : Advance costs n p start w w' b next)
include step

/-- No way becomes longer. -/
theorem Advance.le {j : Nat} (hj : j < n) : w'.distance j ≤ w.distance j := by
  rcases step.change j hj with ⟨distance⟩ | ⟨-, -, less⟩
  · exact Int.le_of_eq distance
  · exact Int.le_of_lt less

/-- No way through a row that was reached is shorter than the one known. -/
theorem Advance.least (sound : (w.settle b.place b.column).Sound n p start)
    (explored : w.Explored costs n p start) (owned : p.owner.getD b.column none = some next)
    (farther : ∀ j ∈ b.column :: w.settled, w.distance j ≤ b.distance)
    (nonneg : ∀ j < n, 0 ≤ p.surplus costs next j) {j : Nat} (hj : j < n) {i : Nat}
    (hi : Reached p.owner start (b.column :: w.settled) i) :
    w'.distance j ≤ rowDistance p start w' i + p.surplus costs i j := by
  rcases hi.of_cons owned with before | rfl
  · rw [step.rowKept i hi]
    exact Int.le_trans (step.le hj) (explored.least j hj i before)
  · rw [step.nextDistance]
    rcases step.change j hj with ⟨-, -, near⟩ | ⟨-, distance⟩
    · rcases sound.mem_iff.mpr hj with remains | done
      · exact Int.le_trans (step.le hj) (near remains)
      · have := step.kept j done
        have := farther j done
        have := nonneg j hj
        omega
    · exact Int.le_of_eq distance

/-- The way to a column comes from a row that was reached, and it is as long as the way to that row
and the step from there. -/
theorem Advance.attained (explored : w.Explored costs n p start) {j : Nat} (hj : j < n) :
    Reached p.owner start (b.column :: w.settled) (w'.source.getD j start) ∧
      w'.distance j = rowDistance p start w' (w'.source.getD j start) +
        p.surplus costs (w'.source.getD j start) j := by
  rcases step.change j hj with ⟨distance, source⟩ | ⟨-, distance, -, source⟩
  · have distance : w'.distance j = w.distance j := distance
    have source : w'.source.getD j start = w.source.getD j start := source
    have before : Reached p.owner start (b.column :: w.settled) (w.source.getD j start) :=
      (explored.reached j hj).mono fun _ hk => List.mem_cons_of_mem _ hk
    rw [source, distance, step.rowKept _ before]
    exact ⟨before, explored.attained j hj⟩
  · rw [source, distance, step.nextDistance]
    exact ⟨step.nextReached, rfl⟩

/-- The columns that remain are at least as far away as those that are settled. -/
theorem Advance.ordered (farther : ∀ j ∈ b.column :: w.settled, w.distance j ≤ b.distance)
    {j k : Nat} (hj : j ∈ b.column :: w.settled) (hk : k < n) (behind : b.distance ≤ w.distance k)
    (nonneg : 0 ≤ p.surplus costs next k) : w'.distance j ≤ w'.distance k := by
  have before := farther j hj
  rw [step.kept j hj]
  rcases step.change k hk with ⟨distance⟩ | ⟨-, distance⟩
  · have distance : w'.distance k = w.distance k := distance
    omega
  · omega

end

/-- Every step of a search in whole numbers leaves the ways explored. -/
theorem Explored.step (h : p.Priced costs n rows) (new : start ∉ rows) {w : Ways Int}
    (sound : w.Sound n p start) (explored : w.Explored costs n p start) {isFree : Nat → Bool}
    {b : Nearest Int} (near : w.nearest .whole isFree = some b) {next : Nat}
    (owned : p.owner.getD b.column none = some next) :
    ((w.settle b.place b.column).extend .whole costs p next b.distance).Explored costs n p
      start := by
  have stands := nearest_some near
  obtain ⟨-, nearer, farther⟩ := nearest_between sound explored near
  have after : (w.settle b.place b.column).Sound n p start := sound.settle stands owned
  have step := advance h new sound explored near owned
  have nonneg : ∀ j < n, 0 ≤ p.surplus costs next j :=
    h.feasible next (h.matched.owned b.column next owned).1
  refine ⟨step.known, fun j hj i hi => ?_, fun j hj => ?_, fun j hj => ?_, fun j hj k hk => ?_⟩
  · rw [step.settled] at hi
    exact step.least after explored owned farther nonneg hj hi
  · rw [step.settled]
    exact (step.attained explored hj).1
  · exact (step.attained explored hj).2
  · rw [step.settled] at hj
    rw [step.remaining] at hk
    have inside : k < n := after.mem_iff.mp (.inl hk)
    exact step.ordered farther hj inside
      (nearer k (stands.settle.mem_iff.mp (List.mem_cons_of_mem _ hk))) (nonneg k inside)

end Ways

/-- What is true of the ways to a free column in whole numbers. The settled columns are those that
are not farther away than the free one, and the ways to them are shortest. -/
structure Found.Shortest (costs : Array (Array Int)) (n : Nat) (p : Stage Int) (start : Nat)
    (f : Found Int) : Prop where
  known : ∀ j < n, f.ways.length.getD j none = some (f.ways.distance j)
  least : ∀ j < n, ∀ i, Reached p.owner start f.ways.settled i →
    f.ways.distance j ≤ f.ways.rowDistance p start i + p.surplus costs i j
  reached : ∀ j < n, Reached p.owner start f.ways.settled (f.ways.source.getD j start)
  attained : ∀ j < n, f.ways.distance j =
    f.ways.rowDistance p start (f.ways.source.getD j start) +
      p.surplus costs (f.ways.source.getD j start) j
  here : f.ways.distance f.column = f.distance
  nearer : ∀ j ∈ f.ways.settled, f.ways.distance j ≤ f.distance
  farther : ∀ j < n, j ∉ f.ways.settled → f.distance ≤ f.ways.distance j

theorem Ways.Explored.found {w : Ways Int} (sound : w.Sound n p start)
    (explored : w.Explored costs n p start) {isFree : Nat → Bool} {b : Nearest Int}
    (near : w.nearest .whole isFree = some b) (free : p.owner.getD b.column none = none) :
    Found.Shortest costs n p start ⟨b.column, b.distance, w.settle b.place b.column⟩ := by
  obtain ⟨same, nearer, farther⟩ := nearest_between sound explored near
  have before {i : Nat} (hi : Reached p.owner start (b.column :: w.settled) i) :
      Reached p.owner start w.settled i := by
    rcases hi with rfl | ⟨j, hj, owned⟩
    · exact .inl rfl
    · rcases List.mem_cons.mp hj with rfl | hj
      · cases free.symm.trans owned
      · exact .inr ⟨j, hj, owned⟩
  refine ⟨explored.known, fun j hj i hi => explored.least j hj i (before hi), fun j hj => ?_,
    explored.attained, same, farther, fun j hj remains => ?_⟩
  · exact (explored.reached j hj).mono fun _ hk => List.mem_cons_of_mem _ hk
  · refine nearer j ((sound.mem_iff.mpr hj).resolve_right fun settled => ?_)
    exact remains (List.mem_cons_of_mem _ settled)

/-- A search in whole numbers ends with shortest ways. -/
theorem findFree_shortest (h : p.Priced costs n rows) (new : start ∉ rows) {fuel : Nat}
    {f : Found Int} (found : findFree .whole costs p fuel start 0 (.fresh n start) = some f) :
    f.Sound n p start ∧ f.Shortest costs n p start := by
  obtain ⟨w, b, ⟨sound, explored⟩, near, free, rfl⟩ := findFree_ends
    (I := fun w => w.Sound n p start ∧ w.Explored costs n p start)
    (fun w b next ⟨sound, explored⟩ near owned =>
      ⟨sound.step (Ways.nearest_some near) owned, explored.step h new sound near owned⟩)
    ⟨(Ways.fresh_sound n p start).extend .whole costs 0 (.inl rfl),
      Ways.explored_first costs n p start⟩ found
  exact ⟨sound.found (Ways.nearest_some near) free, explored.found sound near free⟩

/-- While the starting row has no column, some column is free. -/
theorem exists_free (h : p.Priced costs n rows) (hstart : start < n) (new : start ∉ rows) :
    ∃ j < n, p.owner.getD j none = none := by
  by_contra all
  have owned : ∀ j ∈ List.range n, j ∈ rows.map fun i => p.columnOf.getD i 0 := by
    intro j hj
    obtain ⟨i, hi⟩ := Option.ne_none_iff_exists'.mp fun free =>
      all ⟨j, List.mem_range.mp hj, free⟩
    obtain ⟨taken, column⟩ := h.matched.owned j i hi
    exact List.mem_map.mpr ⟨i, taken, column⟩
  have many := (List.nodup_range.subperm owned).length_le
  have inside : ∀ i ∈ start :: rows, i < n := List.forall_mem_cons.mpr ⟨hstart, h.inside⟩
  have few := ((List.nodup_cons.mpr ⟨new, h.distinct⟩).subperm fun i hi =>
    List.mem_range.mpr (inside i hi)).length_le
  rw [List.length_map, List.length_range] at many
  rw [List.length_range, List.length_cons] at few
  omega

/-- In whole numbers every search meets a free column. -/
theorem exists_found (h : p.Priced costs n rows) (hstart : start < n) (new : start ∉ rows) :
    findFree .whole costs p n start 0 (.fresh n start) ≠ none := by
  refine findFree_ne_none (I := fun w => w.Sound n p start ∧ w.Explored costs n p start)
    (fun w b next ⟨sound, explored⟩ near owned =>
      ⟨sound.step (Ways.nearest_some near) owned, explored.step h new sound near owned⟩)
    (fun w ⟨sound, explored⟩ nothing => ?_)
    ⟨(Ways.fresh_sound n p start).extend .whole costs 0 (.inl rfl),
      Ways.explored_first costs n p start⟩ ?_
  · obtain ⟨j, hj, free⟩ := exists_free h hstart new
    have remains := (sound.mem_iff.mpr hj).resolve_right fun settled => by
      obtain ⟨i, owned⟩ := sound.owned j settled
      cases free.symm.trans owned
    cases (explored.known j hj).symm.trans (Ways.nearest_none nothing remains)
  · have all := (Ways.fresh_sound n p start).columns.length_eq
    rw [List.length_append, Array.length_toList, List.length_range] at all
    omega

/-! ## The change of prices -/

namespace Stage

section

variable {f : Found Int}

/-- The price of a settled column falls by how much nearer it is than the free one. -/
theorem columnPrice_lowered (h : p.Priced costs n rows) (sound : f.Sound n p start)
    (shortest : f.Shortest costs n p start) (k : Nat) :
    (p.reprice .whole start f).columnPrice.getD k 0 =
      if k ∈ f.ways.settled then p.columnPrice.getD k 0 - (f.distance - f.ways.distance k)
      else p.columnPrice.getD k 0 :=
  columnPrice_reprice start sound.distinct (fun j hj => shortest.known j (sound.inside j hj))
    (fun j hj => h.columnPrices ▸ sound.inside j hj) k

/-- The price of a row that was reached rises by how much nearer it is than the free column. -/
theorem rowPrice_raised (h : p.Priced costs n rows) (hstart : start < n) (new : start ∉ rows)
    (sound : f.Sound n p start) (shortest : f.Shortest costs n p start) (i : Nat) :
    (Reached p.owner start f.ways.settled i → (p.reprice .whole start f).rowPrice.getD i 0 =
        p.rowPrice.getD i 0 + (f.distance - f.ways.rowDistance p start i)) ∧
      (¬ Reached p.owner start f.ways.settled i →
        (p.reprice .whole start f).rowPrice.getD i 0 = p.rowPrice.getD i 0) := by
  have changed : (p.reprice .whole start f).rowPrice.getD i 0 =
      if p.columnOf.getD i 0 ∈ f.ways.settled ∧
          p.owner.getD (p.columnOf.getD i 0) none = some i then
        (if start = i then p.rowPrice.getD i 0 + f.distance else p.rowPrice.getD i 0) +
          (f.distance - f.ways.distance (p.columnOf.getD i 0))
      else if start = i then p.rowPrice.getD i 0 + f.distance else p.rowPrice.getD i 0 :=
    rowPrice_reprice sound.distinct (fun j hj => shortest.known j (sound.inside j hj))
      (fun j _ i owned => h.rowPrices ▸ h.inside i (h.matched.owned j i owned).1)
      (h.rowPrices ▸ hstart) fun j owned => (h.matched.owned j i owned).2.symm
  rw [changed]
  constructor
  · rintro (rfl | ⟨j, hj, owned⟩)
    · rw [if_neg fun both => new (h.matched.owned _ i both.2).1, if_pos rfl,
        Ways.rowDistance_start, Int.sub_zero]
    · obtain ⟨taken, column⟩ := h.matched.owned j i owned
      rw [column, if_pos ⟨hj, owned⟩, if_neg fun same : start = i => new (same ▸ taken),
        Ways.rowDistance_of_owner h new owned]
  · intro unreached
    rw [if_neg fun both => unreached (.inr ⟨_, both⟩),
      if_neg fun same : start = i => unreached (.inl same.symm)]

theorem surplus_eq (p q : Stage Int) (i j : Nat) :
    q.surplus costs i j = p.surplus costs i j - (q.rowPrice.getD i 0 - p.rowPrice.getD i 0) -
      (q.columnPrice.getD j 0 - p.columnPrice.getD j 0) := by
  unfold surplus
  omega

/-- After the change of prices, no entry of the starting row or of a row taken up before is cheaper
than its prices. -/
theorem feasible_reprice (h : p.Priced costs n rows) (hstart : start < n) (new : start ∉ rows)
    (sound : f.Sound n p start) (shortest : f.Shortest costs n p start) :
    ∀ i ∈ start :: rows, ∀ j < n, 0 ≤ (p.reprice .whole start f).surplus costs i j := by
  intro i hi j hj
  have column := columnPrice_lowered h sound shortest j
  obtain ⟨reached, unreached⟩ := rowPrice_raised h hstart new sound shortest i
  rw [surplus_eq p]
  by_cases hr : Reached p.owner start f.ways.settled i
  · have least := shortest.least j hj i hr
    have row := reached hr
    split at column
    · omega
    · next remains =>
      have := shortest.farther j hj remains
      omega
  · have before : 0 ≤ p.surplus costs i j := by
      rcases List.mem_cons.mp hi with rfl | hi
      · exact absurd (.inl rfl) hr
      · exact h.feasible i hi j hj
    have row := unreached hr
    split at column
    · next settled =>
      have := shortest.nearer j settled
      omega
    · omega

/-- The rows taken up before still own columns for just their prices. -/
theorem tight_reprice (h : p.Priced costs n rows) (hstart : start < n) (new : start ∉ rows)
    (sound : f.Sound n p start) (shortest : f.Shortest costs n p start) {i : Nat} (hi : i ∈ rows) :
    (p.reprice .whole start f).surplus costs i (p.columnOf.getD i 0) = 0 := by
  have owned := h.matched.owns i hi
  have column := columnPrice_lowered h sound shortest (p.columnOf.getD i 0)
  obtain ⟨reached, unreached⟩ := rowPrice_raised h hstart new sound shortest i
  have before := h.matched.holds i hi
  rw [surplus_eq p, before]
  split at column
  · next settled =>
    have row := reached (.inr ⟨_, settled, owned⟩)
    rw [Ways.rowDistance_of_owner h new owned] at row
    omega
  · next remains =>
    have row := unreached fun hr => by
      rcases hr with rfl | ⟨j, hj, owns⟩
      · exact new hi
      · rw [(h.matched.owned j i owns).2] at remains
        exact remains hj
    omega

/-- Along the ways, entries cost just their prices, too. -/
theorem tight_ways (h : p.Priced costs n rows) (hstart : start < n) (new : start ∉ rows)
    (sound : f.Sound n p start) (shortest : f.Shortest costs n p start) {j : Nat}
    (hj : j ∈ f.ways.settled) :
    (p.reprice .whole start f).surplus costs (f.ways.source.getD j start) j = 0 := by
  have inside := sound.inside j hj
  have column := columnPrice_lowered h sound shortest j
  have row := (rowPrice_raised h hstart new sound shortest _).1 (shortest.reached j inside)
  have attained := shortest.attained j inside
  rw [if_pos hj] at column
  rw [surplus_eq p]
  omega

/-- Handing on columns changes no price. -/
theorem reassign_prices (source : Array Nat) (start fuel column : Nat) (q : Stage Int) :
    (reassign source start fuel column q).rowPrice = q.rowPrice ∧
      (reassign source start fuel column q).columnPrice = q.columnPrice := by
  induction fuel generalizing column q with
  | zero => exact ⟨rfl, rfl⟩
  | succ fuel ih =>
    rw [reassign_succ]
    split
    · exact ⟨rfl, rfl⟩
    · exact ih _ _

/-- In whole numbers, taking up a row keeps all prices right. -/
theorem takeUp_priced (hstart : start < costs.size) (new : start ∉ rows)
    (h : p.Priced costs costs.size rows) {q : Stage Int}
    (taken : p.takeUp .whole costs start = some q) :
    q.Priced costs costs.size (start :: rows) := by
  obtain ⟨f, found, rfl⟩ := takeUp_eq_some taken
  obtain ⟨sound, shortest⟩ := findFree_shortest h new found
  have same := reprice_owners (A := .whole) p start f
  obtain ⟨rowPrices, columnPrices⟩ :=
    reassign_prices f.ways.source start costs.size f.column (p.reprice .whole start f)
  have surplus (i j : Nat) : (reassign f.ways.source start costs.size f.column
      (p.reprice .whole start f)).surplus costs i j =
        (p.reprice .whole start f).surplus costs i j := by
    unfold Stage.surplus
    rw [rowPrices, columnPrices]
  have matched : (p.reprice .whole start f).Matches costs.size
      (fun i j => (p.reprice .whole start f).surplus costs i j = 0) rows := by
    refine { h.matched.congr same with holds := fun i hi => ?_ }
    rw [same.columnOf]
    exact tight_reprice h hstart new sound shortest hi
  refine ⟨?_, ?_, List.nodup_cons.mpr ⟨new, h.distinct⟩,
    List.forall_mem_cons.mpr ⟨hstart, h.inside⟩, ?_, ?_⟩
  · rw [rowPrices, same.rows, h.rowPrices]
  · rw [columnPrices, same.columns, h.columnPrices]
  · simp only [surplus]
    exact matched.reassign (same.sound sound) hstart new h.inside
      fun j hj => tight_ways h hstart new sound shortest hj
  · simp only [surplus]
    exact feasible_reprice h hstart new sound shortest

end

/-- In whole numbers all rows can be taken up. -/
theorem exists_takeUpAll (todo : List Nat) (fresh : (todo.reverse ++ rows).Nodup)
    (inside : ∀ i ∈ todo.reverse ++ rows, i < costs.size) (h : p.Priced costs costs.size rows) :
    ∃ q, p.takeUpAll .whole costs todo = some q ∧
      q.Priced costs costs.size (todo.reverse ++ rows) := by
  induction todo generalizing rows p with
  | nil => exact ⟨p, rfl, h⟩
  | cons start todo ih =>
    rw [List.reverse_cons, List.append_assoc, List.singleton_append] at fresh inside ⊢
    have hstart := inside start (List.mem_append_right _ List.mem_cons_self)
    have new := (List.nodup_cons.mp (List.nodup_append.mp fresh).2.1).1
    obtain ⟨f, found⟩ := Option.ne_none_iff_exists'.mp (exists_found h hstart new)
    have taken : p.takeUp .whole costs start = some _ := Option.map_eq_some_iff.mpr ⟨f, found, rfl⟩
    obtain ⟨q, rest, priced⟩ := ih fresh inside (takeUp_priced hstart new h taken)
    exact ⟨q, by rw [takeUpAll, taken]; exact rest, priced⟩

end Stage

/-! ## The certificate -/

theorem noStage_priced (costs : Array (Array Int)) :
    (noStage .whole costs.size).Priced costs costs.size [] where
  rowPrices := Array.size_replicate
  columnPrices := Array.size_replicate
  distinct := List.nodup_nil
  inside := fun _ hi => absurd hi List.not_mem_nil
  matched := noStage_matches .whole costs.size _
  feasible := fun _ hi => absurd hi List.not_mem_nil

theorem sum_map_add {ι : Type} (f g : ι → Int) (xs : List ι) :
    sum (xs.map fun x => f x + g x) = sum (xs.map f) + sum (xs.map g) := by
  induction xs with
  | nil => rfl
  | cons x xs ih =>
    simp only [List.map_cons, sum, ih]
    omega

theorem total_eq_sum (costs : Costs) {columns : List Nat} (h : columns.length = costs.length) :
    total costs columns =
      sum ((List.range costs.length).map fun i => (costs.getD i []).getD (columns.getD i 0) 0) := by
  unfold total
  congr 1
  refine List.ext_getElem (by simp [h]) fun i below _ => ?_
  have hi : i < costs.length := by
    rw [List.length_zipWith] at below
    omega
  rw [List.getElem_zipWith, List.getElem_map, List.getElem_range]
  simp only [List.getD_eq_getElem?_getD, List.getElem?_eq_getElem hi,
    List.getElem?_eq_getElem (h ▸ hi), Option.getD_some]

theorem getD_toList {α : Type} (xs : Array α) (i : Nat) (d : α) :
    xs.toList.getD i d = xs.getD i d := by
  rw [List.getD_eq_getElem?_getD, Array.getElem?_toList, Array.getD_eq_getD_getElem?]

/-- If no entry is cheaper than its prices, the prices pass the check. -/
theorem isFeasible_of {costs : Costs} {prices : Prices Int}
    (rows : prices.rows.length = costs.length) (columns : prices.columns.length = costs.length)
    (h : ∀ i < costs.length, ∀ j < costs.length,
      prices.rows.getD i 0 + prices.columns.getD j 0 ≤ (costs.getD i []).getD j 0) :
    isFeasible costs prices = true := by
  simp only [isFeasible, Bool.and_eq_true, beq_iff_eq, List.all_eq_true, decide_eq_true_eq]
  refine ⟨⟨rows, columns⟩, fun e he d hd => ?_⟩
  obtain ⟨i, hi, rfl⟩ := List.mem_iff_getElem.mp he
  rw [List.getElem_zip] at hd ⊢
  dsimp only at hd ⊢
  obtain ⟨j, hj, rfl⟩ := List.mem_iff_getElem.mp hd
  rw [List.getElem_zip]
  rw [List.length_zip] at hi hj
  have bound := h i (by omega) j (by omega)
  rw [getD_of_lt (by omega), getD_of_lt (by omega), List.getD_eq_getElem?_getD (l := costs),
    List.getElem?_eq_getElem (by omega), Option.getD_some, getD_of_lt (by omega)] at bound
  exact bound

/-- When all rows are taken up, the prices prove the assignment cheapest. -/
theorem certified_of_priced {costs : Costs} (square : isSquare costs = true) {p : Stage Int}
    (all : ∀ i < costs.length, i ∈ rows)
    (h : p.Priced (costs.map List.toArray).toArray costs.length rows) :
    isCertified costs ⟨p.columnOf.toList, ⟨p.rowPrice.toList, p.columnPrice.toList⟩⟩ = true := by
  have arranged := h.matched.perm all
  have length : p.columnOf.toList.length = costs.length := by
    rw [arranged.length_eq, List.length_range]
  have surplus (i j : Nat) : p.surplus (costs.map List.toArray).toArray i j =
      (costs.getD i []).getD j 0 - p.rowPrice.getD i 0 - p.columnPrice.getD j 0 := by
    rw [Stage.surplus, entry_toArray]
    rfl
  have feasible : isFeasible costs ⟨p.rowPrice.toList, p.columnPrice.toList⟩ = true := by
    refine isFeasible_of h.rowPrices h.columnPrices fun i hi j hj => ?_
    have bound := h.feasible i (all i hi) j hj
    rw [surplus] at bound
    show p.rowPrice.toList.getD i 0 + p.columnPrice.toList.getD j 0 ≤ _
    rw [getD_toList, getD_toList]
    omega
  have entries : ∀ i ∈ List.range costs.length,
      (costs.getD i []).getD (p.columnOf.toList.getD i 0) 0 =
        p.rowPrice.toList.getD i 0 + p.columnPrice.toList.getD (p.columnOf.toList.getD i 0) 0 := by
    intro i hi
    have tight := h.matched.holds i (all i (List.mem_range.mp hi))
    rw [surplus] at tight
    simp only [getD_toList]
    omega
  have rowSum : sum ((List.range costs.length).map fun i => p.rowPrice.toList.getD i 0) =
      sum p.rowPrice.toList := by
    have length : p.rowPrice.toList.length = costs.length := h.rowPrices
    rw [← length, sum_getD_range]
  have columnSum : sum ((List.range costs.length).map fun i =>
      p.columnPrice.toList.getD (p.columnOf.toList.getD i 0) 0) = sum p.columnPrice.toList := by
    have listed : (List.range costs.length).map (fun i => p.columnOf.toList.getD i 0) =
        p.columnOf.toList := by
      refine List.ext_getElem (by simp [length]) fun i _ hi => ?_
      rw [List.getElem_map, List.getElem_range, List.getD_eq_getElem?_getD,
        List.getElem?_eq_getElem hi, Option.getD_some]
    have mapped := congrArg (List.map fun j => p.columnPrice.toList.getD j 0) listed
    rw [List.map_map] at mapped
    have columns : p.columnPrice.toList.length = costs.length := h.columnPrices
    rw [← columns] at arranged
    exact (congrArg sum mapped).trans ((sum_map_perm arranged).trans (sum_getD_range _))
  have tight : total costs p.columnOf.toList =
      sum p.rowPrice.toList + sum p.columnPrice.toList := by
    rw [total_eq_sum costs length, List.map_congr_left entries, sum_map_add, rowSum, columnSum]
  simp only [isCertified, Bool.and_eq_true, beq_iff_eq]
  exact ⟨⟨⟨square, isPermutation_iff.mpr arranged⟩, feasible⟩, tight⟩

/-- In whole numbers the search proposes an assignment with prices that prove it cheapest. -/
theorem propose_certified {costs : Costs} (square : isSquare costs = true) :
    ∃ q, propose .whole costs = some q ∧ isCertified costs q = true := by
  have size := size_toArray costs
  obtain ⟨p, taken, priced⟩ := Stage.exists_takeUpAll (List.range costs.length)
    (by simp [List.nodup_range]) (by simp) (noStage_priced (costs.map List.toArray).toArray)
  rw [size] at taken priced
  refine ⟨_, ?_, certified_of_priced square (by simp) priced⟩
  rw [propose_eq, taken]
  rfl

/-- The assignment returned is the one that the search finds. -/
theorem solve_eq_search {costs : Costs} (square : isSquare costs = true) :
    (propose .whole costs).map (·.columns) = some (solve costs) := by
  obtain ⟨q, proposed, certified⟩ := propose_certified square
  rw [solve, proposed, Option.filter_some_pos certified]
  rfl

end SchemaDrift.Assignment
