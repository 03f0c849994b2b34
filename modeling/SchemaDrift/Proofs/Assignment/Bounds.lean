import SchemaDrift.Proofs.Assignment.Potentials

/-!
# How large the numbers of the search become

In whole numbers, no price and no distance of a search comes to more than a few costs. A column
that no row owns has the price zero, and no column has a positive price. While some column is free,
its entries bound the prices of the rows from above, and the entries that are owned bound the
prices of the columns from below. The distances lie between the cheapest way out of the starting
row and the dearest.

* `Stage.Discounts` is what is true of the signs of the prices, and `takeUp_discounts` keeps it.
* `Stage.Priced.rowPrice_le` and `Stage.Priced.columnPrice_le` bound the prices.
* `findFree_bounded` carries the bounds on the distances through a search.
-/

namespace SchemaDrift.Assignment

variable {costs : Array (Array Int)} {n start : Nat} {rows : List Nat} {p : Stage Int}

/-- Whether no entry is larger than a bound in magnitude. -/
def Within (costs : Array (Array Int)) (n : Nat) (bound : Int) : Prop :=
  ∀ i < n, ∀ j < n, -bound ≤ entry .whole costs i j ∧ entry .whole costs i j ≤ bound

/-- The signs of the prices: rows and columns without partner are priced at zero, and columns are
never priced above. -/
structure Stage.Discounts (rows : List Nat) (p : Stage Int) : Prop where
  untaken : ∀ i, i ∉ rows → p.rowPrice.getD i 0 = 0
  free : ∀ j, p.owner.getD j none = none → p.columnPrice.getD j 0 = 0
  nonpos : ∀ j, p.columnPrice.getD j 0 ≤ 0

/-! ## Prices -/

section

variable {bound : Int} (within : Within costs n bound) (h : p.Priced costs n rows)
  (signs : p.Discounts rows) (hstart : start < n) (new : start ∉ rows)
include within h signs hstart new

theorem Stage.Priced.rowPrice_le {i : Nat} (hi : i < n) :
    -bound ≤ p.rowPrice.getD i 0 ∧ p.rowPrice.getD i 0 ≤ bound := by
  by_cases taken : i ∈ rows
  · obtain ⟨k, hk, free⟩ := exists_free h hstart new
    have owned := h.matched.owns i taken
    have inside : p.columnOf.getD i 0 < n := by
      refine Nat.lt_of_not_le fun outside => ?_
      rw [getD_of_size_le _ _ _ (h.matched.owners ▸ outside)] at owned
      cases owned
    have tight := h.matched.holds i taken
    have feasible := h.feasible i taken k hk
    have lower := (within i hi _ inside).1
    have upper := (within i hi k hk).2
    have discount := signs.nonpos (p.columnOf.getD i 0)
    have zero := signs.free k free
    unfold Stage.surplus at tight feasible
    omega
  · have zero := signs.untaken i taken
    have some_entry := within i hi start hstart
    omega

theorem Stage.Priced.columnPrice_le {j : Nat} (hj : j < n) :
    -2 * bound ≤ p.columnPrice.getD j 0 ∧ p.columnPrice.getD j 0 ≤ 0 := by
  have discount := signs.nonpos j
  refine ⟨?_, discount⟩
  rcases owned : p.owner.getD j none with _ | i
  · have zero := signs.free j owned
    have some_entry := within start hstart j hj
    omega
  · obtain ⟨taken, column⟩ := h.matched.owned j i owned
    have hi := h.inside i taken
    have tight := h.matched.holds i taken
    have row := rowPrice_le within h signs hstart new hi
    have lower := (within i hi j hj).1
    rw [column] at tight
    unfold Stage.surplus at tight
    omega

/-! ## Distances -/

theorem surplus_start_le {j : Nat} (hj : j < n) :
    -bound ≤ p.surplus costs start j ∧ p.surplus costs start j ≤ 3 * bound := by
  have discount := h.columnPrice_le within signs hstart new hj
  have zero := signs.untaken start new
  have some_entry := within start hstart j hj
  unfold Stage.surplus
  omega

end

/-- What is true of the extended ways, with bounds on the distances. -/
structure Ways.Ranged (costs : Array (Array Int)) (n : Nat) (bound : Int) (p : Stage Int)
    (start : Nat) (w : Ways Int) : Prop where
  sound : w.Sound n p start
  explored : w.Explored costs n p start
  range : ∀ j < n, -bound ≤ w.distance j ∧ w.distance j ≤ 3 * bound

/-- No way is longer than the direct one from the starting row. -/
theorem Ways.Explored.distance_le {w : Ways Int} (explored : w.Explored costs n p start) {j : Nat}
    (hj : j < n) : w.distance j ≤ p.surplus costs start j := by
  have direct := explored.least j hj start (.inl rfl)
  rwa [rowDistance_start, Int.zero_add] at direct

section

variable {bound : Int} (within : Within costs n bound) (h : p.Priced costs n rows)
  (signs : p.Discounts rows) (hstart : start < n) (new : start ∉ rows)
include within h signs hstart new

theorem Ways.ranged_first :
    ((fresh n start).extend .whole costs p start 0).Ranged costs n bound p start := by
  have sound := (fresh_sound n p start).extend .whole costs 0 (.inl rfl)
  have explored := explored_first costs n p start
  refine ⟨sound, explored, fun j hj => ?_⟩
  have direct := surplus_start_le within h signs hstart new hj
  have attained := explored.attained j hj
  rcases explored.reached j hj with first | ⟨k, hk, -⟩
  · rw [first, rowDistance_start, Int.zero_add] at attained
    omega
  · rw [(extend_columns .whole costs p start 0 (fresh n start)).settled] at hk
    exact absurd hk List.not_mem_nil

theorem Ways.Ranged.step {w : Ways Int} (ranged : w.Ranged costs n bound p start)
    {isFree : Nat → Bool} {b : Nearest Int} (near : w.nearest .whole isFree = some b) {next : Nat}
    (owned : p.owner.getD b.column none = some next) :
    ((w.settle b.place b.column).extend .whole costs p next b.distance).Ranged costs n bound p
      start := by
  obtain ⟨sound, explored, range⟩ := ranged
  have stands := nearest_some near
  have explored' := explored.step h new sound near owned
  have same := (nearest_between sound explored near).1
  refine ⟨sound.step stands owned, explored', fun j hj => ⟨?_, ?_⟩⟩
  · have before := (range j hj).1
    have nearest := (range b.column (sound.mem_iff.mp (.inl stands.mem))).1
    have nonneg := h.feasible next (h.matched.owned b.column next owned).1 j hj
    rcases (extend_change costs (sound.settle stands owned) next b.distance
      (explored.known j hj)).2 with ⟨distance⟩ | ⟨-, distance⟩
    · have distance : _ = w.distance j := distance
      omega
    · omega
  · have direct := (surplus_start_le within h signs hstart new hj).2
    exact Int.le_trans (explored'.distance_le hj) direct

/-- A search ends with shortest ways, and their lengths are bounded. -/
theorem findFree_bounded {fuel : Nat} {f : Found Int}
    (found : findFree .whole costs p fuel start 0 (.fresh n start) = some f) :
    f.Sound n p start ∧ f.Shortest costs n p start ∧
      ∀ j < n, -bound ≤ f.ways.distance j ∧ f.ways.distance j ≤ 3 * bound := by
  obtain ⟨w, b, ranged, near, free, rfl⟩ := findFree_ends
    (I := fun w => w.Ranged costs n bound p start)
    (fun _ _ _ ranged near owned => ranged.step within h signs hstart new near owned)
    (Ways.ranged_first within h signs hstart new) found
  exact ⟨ranged.sound.found (Ways.nearest_some near) free,
    ranged.explored.found ranged.sound near free, ranged.range⟩

end

/-! ## The signs after a row is taken up -/

/-- Handing on columns leaves no column without an owner that had one. -/
theorem Stage.owner_of_reassign {source : Array Nat} {fuel column j : Nat} {q : Stage Int}
    (free : (reassign source start fuel column q).owner.getD j none = none) :
    q.owner.getD j none = none := by
  have kept {row column : Nat} {q : Stage Int}
      (free : (q.give row column).owner.getD j none = none) : q.owner.getD j none = none := by
    unfold give at free
    rw [getD_setIfInBounds] at free
    split at free
    · cases free
    · exact free
  induction fuel generalizing column q with
  | zero => exact free
  | succ fuel ih =>
    rw [reassign_succ] at free
    split at free
    · exact kept free
    · exact kept (ih free)

theorem Stage.takeUp_discounts (hstart : start < costs.size) (new : start ∉ rows)
    (h : p.Priced costs costs.size rows) (signs : p.Discounts rows) {q : Stage Int}
    (taken : p.takeUp .whole costs start = some q) : q.Discounts (start :: rows) := by
  obtain ⟨f, found, rfl⟩ := takeUp_eq_some taken
  obtain ⟨sound, shortest⟩ := findFree_shortest h new found
  obtain ⟨rowPrices, columnPrices⟩ :=
    reassign_prices f.ways.source start costs.size f.column (p.reprice .whole start f)
  refine ⟨fun i hi => ?_, fun j free => ?_, fun j => ?_⟩
  · rw [rowPrices, (rowPrice_raised h hstart new sound shortest i).2 ?_]
    · exact signs.untaken i fun taken => hi (List.mem_cons_of_mem start taken)
    · rintro (rfl | ⟨j, -, owned⟩)
      · exact hi List.mem_cons_self
      · exact hi (List.mem_cons_of_mem start (h.matched.owned j i owned).1)
  · have before := owner_of_reassign free
    rw [(reprice_owners p start f).owner] at before
    rw [columnPrices, columnPrice_lowered h sound shortest, signs.free j before]
    split
    · next settled =>
      obtain ⟨others, all, owned⟩ := sound.settled
      rcases List.mem_cons.mp (all ▸ settled) with rfl | other
      · have := shortest.here
        omega
      · obtain ⟨i, hi⟩ := owned j other
        cases before.symm.trans hi
    · rfl
  · have discount := signs.nonpos j
    rw [columnPrices, columnPrice_lowered h sound shortest]
    split
    · next settled =>
      have := shortest.nearer j settled
      omega
    · exact discount

end SchemaDrift.Assignment
