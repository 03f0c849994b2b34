import SchemaDrift.Assignment.Grid
import SchemaDrift.Proofs.Assignment.Rounded

/-!
# Assignments for squares of numbers

An assignment for a square of numbers gives out every column once, whatever the numbers are. It is
of least total if nothing is rounded on the way: every number is itself a double, and so are all
sums that the search may form. Integers are, as long as they are small enough for their number.
Where a number or a sum is rounded, an assignment may be found that is not of least total.

* `Grid.assign_ofRows`: a square of numbers is handed to the search in doubles.
* `Grid.Exact` says that nothing is rounded, and `Grid.exact_of_small` that small integers are so.
* `Grid.assign_least` is the statement about all squares, and `Grid.assign_rounds` an instance of
  what may happen when numbers are rounded.
-/

namespace SchemaDrift

namespace Assignment

/-! ## Units -/

theorem total_scaled {d : Int} : ∀ (costs : Costs) (columns : List Nat),
    total (costs.map fun row => row.map (· * d)) columns = total costs columns * d
  | [], _ => (Int.zero_mul d).symm
  | _ :: _, [] => (Int.zero_mul d).symm
  | row :: costs, j :: columns => by
    have chosen : (row.map (· * d)).getD j 0 = row.getD j 0 * d := by
      rw [List.getD_eq_getElem?_getD, List.getD_eq_getElem?_getD, List.getElem?_map]
      cases row[j]? with
      | none => exact (Int.zero_mul d).symm
      | some c => rfl
    rw [List.map_cons, total_cons, total_cons, total_scaled costs columns, chosen, Int.add_mul]

/-- An assignment is of least total in every unit. -/
theorem least_of_scaled {d : Int} (positive : 0 < d) {costs : Costs} {columns : List Nat}
    (h : Least (costs.map fun row => row.map (· * d)) columns) : Least costs columns := by
  have perm := h.perm
  rw [List.length_map] at perm
  refine ⟨perm, fun others arranged => ?_⟩
  have le := h.le others (by rwa [List.length_map])
  rw [total_scaled, total_scaled] at le
  exact Int.le_of_mul_le_mul_right le positive

end Assignment

/-- The exact value of a finite number in units of `2 ^ -1074`. -/
def Number.units : Number → Int
  | .int n => n * Double.one
  | .double x => x.units.getD 0

namespace Grid

open Assignment

def ofRows (rows : List (List Number)) : Grid :=
  .rows (rows.map fun row => .rows (row.map fun x => .entry (.num x)))

def doubles (rows : List (List Number)) : List (List Double) :=
  rows.map fun row => row.map Number.toDouble

def values (rows : List (List Number)) : Costs :=
  rows.map fun row => row.map Number.units

/-! ## The shape of a square -/

theorem common_self (dimensions : List Nat) : common dimensions dimensions = dimensions := by
  induction dimensions with
  | nil => rfl
  | cons n ns ih => rw [common, if_pos rfl, ih]

theorem sharedShape_of_forall {dimensions : List Nat} {gs : List Grid} (nonempty : gs ≠ [])
    (h : ∀ g ∈ gs, g.shape = dimensions) : sharedShape gs = dimensions := by
  induction gs with
  | nil => exact absurd rfl nonempty
  | cons g gs ih =>
    cases gs with
    | nil => exact h g List.mem_cons_self
    | cons g' gs =>
      rw [sharedShape, h g List.mem_cons_self,
        ih (List.cons_ne_nil g' gs) (fun x hx => h x (List.mem_cons_of_mem g hx)), common_self]

theorem areRegular_of_forall {dimensions : List Nat} {gs : List Grid}
    (h : ∀ g ∈ gs, g.shape = dimensions ∧ g.isRegular = true) :
    areRegular dimensions gs = true := by
  induction gs with
  | nil => rfl
  | cons g gs ih =>
    obtain ⟨shape, regular⟩ := h g List.mem_cons_self
    rw [areRegular, decide_eq_true shape, regular, ih fun x hx => h x (List.mem_cons_of_mem g hx)]
    rfl

theorem sharedShape_entries (row : List Number) :
    sharedShape (row.map fun x => .entry (.num x)) = [] := by
  cases row with
  | nil => rfl
  | cons x row =>
    refine sharedShape_of_forall (List.cons_ne_nil _ _) fun g hg => ?_
    obtain ⟨y, -, rfl⟩ := List.mem_map.mp hg
    rfl

theorem shape_row (row : List Number) :
    shape (.rows (row.map fun x => .entry (.num x))) = [row.length] := by
  rw [shape, sharedShape_entries, List.length_map]

theorem isRegular_row (row : List Number) :
    isRegular (.rows (row.map fun x => .entry (.num x))) = true := by
  rw [isRegular, sharedShape_entries]
  refine areRegular_of_forall fun g hg => ?_
  obtain ⟨y, -, rfl⟩ := List.mem_map.mp hg
  exact ⟨rfl, rfl⟩

theorem table_ofRows (rows : List (List Number)) :
    (ofRows rows).table = rows.map fun row => row.map Json.num := by
  have entries (row : List Number) :
      entries (.rows (row.map fun x => .entry (.num x))) = row.map Json.num := by
    simp only [Grid.entries]
    rw [List.filterMap_map, ← List.filterMap_eq_map]
    rfl
  rw [ofRows, table, List.map_map]
  exact List.map_congr_left fun row _ => entries row

section

variable {rows : List (List Number)} (square : ∀ row ∈ rows, row.length = rows.length)
include square

theorem sharedShape_rows (nonempty : rows ≠ []) :
    sharedShape (rows.map fun row => .rows (row.map fun x => .entry (.num x))) =
      [rows.length] := by
  refine sharedShape_of_forall (by simpa using nonempty) fun g hg => ?_
  obtain ⟨row, hrow, rfl⟩ := List.mem_map.mp hg
  rw [shape_row, square row hrow]

theorem shape_ofRows (nonempty : rows ≠ []) :
    (ofRows rows).shape = [rows.length, rows.length] := by
  rw [ofRows, shape, sharedShape_rows square nonempty, List.length_map]

theorem isRegular_ofRows : (ofRows rows).isRegular = true := by
  rw [ofRows, isRegular]
  refine areRegular_of_forall fun g hg => ?_
  obtain ⟨row, hrow, rfl⟩ := List.mem_map.mp hg
  have nonempty : rows ≠ [] := List.ne_nil_of_mem hrow
  rw [sharedShape_rows square nonempty, shape_row, square row hrow]
  exact ⟨rfl, isRegular_row row⟩

theorem square_doubles : ∀ row ∈ doubles rows, row.length = (doubles rows).length := by
  simp only [doubles, List.forall_mem_map, List.length_map]
  exact square

theorem isSquare_values : isSquare (values rows) = true := by
  simp only [isSquare, values, List.all_eq_true, beq_iff_eq, List.forall_mem_map, List.length_map]
  exact square

/-- The assignment for a square of numbers is the one that the search finds for the doubles next
to them. -/
theorem assign_ofRows : (ofRows rows).assign =
    if rows.all fun row => row.all fun x => isCost (.num x) then
      if (doubles rows).all fun row => row.all Double.isFinite then
        ((propose .rounded (doubles rows)).map (·.columns)).elim (.error .noAssignment) .ok
      else .error .costNotFinite
    else .error .noCost := by
  by_cases nonempty : rows = []
  · subst nonempty
    rfl
  · have volume_pos : volume (ofRows rows).shape ≠ 0 := by
      have positive : 0 < rows.length := List.length_pos_iff.mpr nonempty
      rw [shape_ofRows square nonempty]
      show 1 * rows.length * rows.length ≠ 0
      rw [Nat.one_mul]
      exact Nat.mul_ne_zero positive.ne' positive.ne'
    have costs : ((ofRows rows).table.all fun row => row.all isCost) =
        rows.all fun row => row.all fun x => isCost (.num x) := by
      rw [table_ofRows, List.all_map]
      refine congrArg (rows.all ·) (funext fun row => ?_)
      show (row.map Json.num).all isCost = _
      rw [List.all_map]
      rfl
    have searched : ((ofRows rows).table.map fun row => row.map fun x => (value x).toDouble) =
        doubles rows := by
      rw [table_ofRows, List.map_map]
      refine List.map_congr_left fun row _ => ?_
      show (row.map Json.num).map (fun x => (value x).toDouble) = _
      rw [List.map_map]
      rfl
    unfold assign
    rw [isRegular_ofRows square, if_neg (by decide), if_neg volume_pos,
      shape_ofRows square nonempty]
    dsimp only
    rw [if_pos rfl, costs, searched]
    split
    · split
      · next finite =>
        simp only [List.all_eq_true] at finite
        rw [solveRounded_eq_search (square_doubles square) finite]
        cases (propose .rounded (doubles rows)).map (·.columns) <;> rfl
      · rfl
    · rfl

/-- An assignment is returned for a square of numbers if all of them can be costs, their doubles are
finite, and the search in doubles finds it. -/
theorem assign_eq_ok_iff {columns : List Nat} : (ofRows rows).assign = .ok columns ↔
    (∀ row ∈ rows, ∀ x ∈ row, isCost (.num x) = true) ∧
      (∀ row ∈ doubles rows, ∀ x ∈ row, x.isFinite = true) ∧
      (propose .rounded (doubles rows)).map (·.columns) = some columns := by
  have costs : (rows.all fun row => row.all fun x => isCost (.num x)) = true ↔
      ∀ row ∈ rows, ∀ x ∈ row, isCost (.num x) = true := by
    simp only [List.all_eq_true]
  have finite : ((doubles rows).all fun row => row.all Double.isFinite) = true ↔
      ∀ row ∈ doubles rows, ∀ x ∈ row, x.isFinite = true := by
    simp only [List.all_eq_true]
  rw [assign_ofRows square, ← costs, ← finite]
  generalize (propose .rounded (doubles rows)).map (·.columns) = found
  constructor
  · intro h
    split at h
    · next room =>
      split at h
      · next range =>
        cases found with
        | none => cases h
        | some columns' => exact ⟨room, range, congrArg some (Except.ok.inj h)⟩
      · cases h
    · cases h
  · rintro ⟨room, range, rfl⟩
    rw [if_pos room, if_pos range, Option.elim_some]

/-- Whatever is returned for a square of numbers gives out every column once. -/
theorem assign_perm {columns : List Nat} (h : (ofRows rows).assign = .ok columns) :
    columns.Perm (List.range rows.length) := by
  obtain ⟨q, proposed, rfl⟩ := Option.map_eq_some_iff.mp ((assign_eq_ok_iff square).mp h).2.2
  have arranged := propose_perm proposed
  rwa [doubles, List.length_map] at arranged

end

/-! ## Numbers that are not rounded -/

/-- Whether nothing is rounded: all integers have room in a word, all numbers are themselves
doubles, and so are all sums that the search may form. -/
structure Exact (rows : List (List Number)) : Prop where
  costs : ∀ row ∈ rows, ∀ x ∈ row, isCost (.num x) = true
  doubles : ∀ row ∈ rows, ∀ x ∈ row, x.toDouble.units = some x.units
  sums : isExact (values rows) = true

theorem Exact.finite {rows : List (List Number)} (h : Exact rows) :
    ∀ row ∈ Grid.doubles rows, ∀ x ∈ row, x.isFinite = true := by
  simp only [Grid.doubles, List.forall_mem_map]
  intro row hrow x hx
  have value := h.doubles row hrow x hx
  generalize x.toDouble = y at value
  cases y with
  | nan => cases value
  | infinite _ => cases value
  | finite negative scale fraction => rfl

theorem Exact.exactCosts {rows : List (List Number)} (h : Exact rows) :
    exactCosts (Grid.doubles rows) = values rows := by
  rw [Assignment.exactCosts, Grid.doubles, List.map_map]
  refine List.map_congr_left fun row hrow => ?_
  show (row.map Number.toDouble).map (fun x => x.units.getD 0) = row.map Number.units
  rw [List.map_map]
  refine List.map_congr_left fun x hx => ?_
  show x.toDouble.units.getD 0 = x.units
  rw [h.doubles row hrow x hx, Option.getD_some]

/-- If nothing is rounded, an assignment is returned, and it is of least total. -/
theorem Exact.assign {rows : List (List Number)} (h : Exact rows)
    (square : ∀ row ∈ rows, row.length = rows.length) :
    ∃ columns, (ofRows rows).assign = .ok columns ∧ Least (values rows) columns := by
  have searched := propose_rounded h.finite (h.exactCosts ▸ h.sums)
  rw [h.exactCosts, solve_eq_search (isSquare_values square)] at searched
  exact ⟨solve (values rows), (assign_eq_ok_iff square).mpr ⟨h.costs, h.finite, searched⟩,
    least_solve _⟩

/-! ## Integers -/

/-- The rows of a square of integers. -/
def integers (costs : Costs) : List (List Number) := costs.map fun row => row.map Number.int

theorem square_integers {costs : Costs} (square : isSquare costs = true) :
    ∀ row ∈ integers costs, row.length = (integers costs).length := by
  simp only [isSquare, List.all_eq_true, beq_iff_eq] at square
  simp only [integers, List.forall_mem_map, List.length_map]
  exact square

theorem values_integers (costs : Costs) :
    values (integers costs) = costs.map fun row => row.map (· * (Double.one : Int)) := by
  rw [values, integers, List.map_map]
  refine List.map_congr_left fun row _ => ?_
  show (row.map Number.int).map Number.units = _
  rw [List.map_map]
  rfl

theorem mem_integers {costs : Costs} {row : List Number} (hrow : row ∈ integers costs) {x : Number}
    (hx : x ∈ row) : ∃ r ∈ costs, ∃ c ∈ r, x = .int c := by
  obtain ⟨r, hr, rfl⟩ := List.mem_map.mp hrow
  obtain ⟨c, hc, rfl⟩ := List.mem_map.mp hx
  exact ⟨r, hr, c, hc, rfl⟩

theorem isExact_of_small {costs : Costs}
    (small : ∀ row ∈ costs, ∀ c ∈ row, 16 * (costs.length + 1) * c.natAbs ≤ 9007199254740992) :
    isExact (values (integers costs)) = true := by
  have scaled {row : List Int} (hrow : row ∈ values (integers costs)) {c : Int} (hc : c ∈ row) :
      ∃ r ∈ costs, ∃ d ∈ r, c.natAbs = d.natAbs * Double.one := by
    rw [values_integers] at hrow
    obtain ⟨r, hr, rfl⟩ := List.mem_map.mp hrow
    obtain ⟨d, hd, rfl⟩ := List.mem_map.mp hc
    exact ⟨r, hr, d, hd, by rw [Int.natAbs_mul, Int.natAbs_natCast]⟩
  have length : (values (integers costs)).length = costs.length := by
    rw [values_integers, List.length_map]
  have bound : reach (values (integers costs)) ≤ 9007199254740992 * Double.one := by
    unfold reach
    rw [length]
    refine largestCost_induct (P := fun m =>
      16 * (costs.length + 1) * m ≤ 9007199254740992 * Double.one) (Nat.zero_le _) ?_
    intro row hrow c hc
    obtain ⟨r, hr, d, hd, value⟩ := scaled hrow hc
    rw [value, ← Nat.mul_assoc]
    exact Nat.mul_le_mul_right _ (small r hr d hd)
  have unit : Double.one ≤ commonUnit (values (integers costs)) := by
    obtain ⟨e, power⟩ := commonUnit_eq_pow (values (integers costs))
    refine Nat.le_of_dvd (power ▸ Nat.two_pow_pos e) (dvd_commonUnit ?_ ?_)
    · rw [Double.one_eq, ceiling_eq]
      exact pow_dvd_pow 2 (by decide)
    · intro row hrow c hc
      obtain ⟨r, -, d, -, value⟩ := scaled hrow hc
      rw [value]
      exact Nat.dvd_mul_left _ _
  have range : 9007199254740992 * Double.one < ceiling := by
    have digits : 9007199254740992 = 2 ^ 53 := rfl
    rw [Double.one_eq, ceiling_eq, digits, ← pow_add]
    exact pow_lt_pow_right₀ (by decide) (by decide)
  exact Bool.and_eq_true_iff.mpr
    ⟨decide_eq_true (Nat.le_trans bound (Nat.mul_le_mul_left _ unit)),
      decide_eq_true (Nat.lt_of_le_of_lt bound range)⟩

/-- Integers are not rounded if there is room within 53 bits for sixteen of them for every row and
sixteen more. -/
theorem exact_of_small {costs : Costs}
    (small : ∀ row ∈ costs, ∀ c ∈ row, 16 * (costs.length + 1) * c.natAbs ≤ 9007199254740992) :
    Exact (integers costs) := by
  have bits : ∀ row ∈ costs, ∀ c ∈ row, c.natAbs ≤ 9007199254740992 := by
    intro row hrow c hc
    exact Nat.le_trans (Nat.le_mul_of_pos_left _ (by omega)) (small row hrow c hc)
  refine ⟨fun row hrow x hx => ?_, fun row hrow x hx => ?_, isExact_of_small small⟩
  · obtain ⟨r, hr, c, hc, rfl⟩ := mem_integers hrow hx
    have := bits r hr c hc
    show (decide (-9223372036854775808 ≤ c) && decide (c ≤ 18446744073709551615)) = true
    rw [decide_eq_true (by omega), decide_eq_true (by omega)]
    rfl
  · obtain ⟨r, hr, c, hc, rfl⟩ := mem_integers hrow hx
    exact Double.ofInt_units (bits r hr c hc)

/-! ## Assignments for squares -/

/-- For every square of whole numbers the search finds an assignment, its prices prove it, and no
assignment has a smaller total. For a square of any numbers, what is returned is just what the same
search finds in doubles, and it gives out every column once. If nothing is rounded, an assignment is
returned, and no assignment has a smaller exact total; in particular for whole numbers that are
small enough. -/
theorem assign_least {costs : Costs} (whole : isSquare costs = true) {rows : List (List Number)}
    (square : ∀ row ∈ rows, row.length = rows.length) :
    (∃ q, propose .whole costs = some q ∧ isCertified costs q = true ∧ Least costs q.columns) ∧
      (∀ columns, (ofRows rows).assign = .ok columns ↔
        (∀ row ∈ rows, ∀ x ∈ row, isCost (.num x) = true) ∧
          (∀ row ∈ doubles rows, ∀ x ∈ row, x.isFinite = true) ∧
          (propose .rounded (doubles rows)).map (·.columns) = some columns) ∧
      (∀ columns, (ofRows rows).assign = .ok columns → columns.Perm (List.range rows.length)) ∧
      (Exact rows → ∃ columns, (ofRows rows).assign = .ok columns ∧
        Least (values rows) columns) ∧
      ((∀ row ∈ costs, ∀ c ∈ row, 16 * (costs.length + 1) * c.natAbs ≤ 9007199254740992) →
        ∃ columns, (ofRows (integers costs)).assign = .ok columns ∧ Least costs columns) := by
  refine ⟨?_, fun columns => assign_eq_ok_iff square, fun columns => assign_perm square,
    fun unrounded => unrounded.assign square, fun small => ?_⟩
  · obtain ⟨q, proposed, certified⟩ := propose_certified whole
    have searched := solve_eq_search whole
    rw [proposed, Option.map_some, Option.some.injEq] at searched
    exact ⟨q, proposed, certified, searched ▸ least_solve costs⟩
  · obtain ⟨columns, returned, least⟩ := (exact_of_small small).assign (square_integers whole)
    rw [values_integers] at least
    exact ⟨columns, returned, least_of_scaled (Int.natCast_pos.mpr Double.one_pos) least⟩

theorem assign_least_three :
    (∃ q, propose .whole [[4, 1, -3], [2, 0, 5], [3, 2, 2]] = some q ∧
        isCertified [[4, 1, -3], [2, 0, 5], [3, 2, 2]] q = true ∧
        Least [[4, 1, -3], [2, 0, 5], [3, 2, 2]] q.columns) ∧
      (ofRows (integers [[4, 1, -3], [2, 0, 5], [3, 2, 2]])).assign = .ok [2, 1, 0] ∧
      [2, 1, 0].Perm (List.range 3) ∧
      (∃ columns, (ofRows (integers [[4, 1, -3], [2, 0, 5], [3, 2, 2]])).assign = .ok columns ∧
        Least (values (integers [[4, 1, -3], [2, 0, 5], [3, 2, 2]])) columns) ∧
      ∃ columns, (ofRows (integers [[4, 1, -3], [2, 0, 5], [3, 2, 2]])).assign = .ok columns ∧
        Least [[4, 1, -3], [2, 0, 5], [3, 2, 2]] columns := by
  have whole : isSquare [[4, 1, -3], [2, 0, 5], [3, 2, 2]] = true := by decide
  obtain ⟨searched, returns, arranged, exact, small⟩ := assign_least whole (square_integers whole)
  have returned : (ofRows (integers [[4, 1, -3], [2, 0, 5], [3, 2, 2]])).assign =
      .ok [2, 1, 0] := (returns _).mpr ⟨by decide, by decide +kernel, by decide +kernel⟩
  exact ⟨searched, returned, arranged _ returned, exact (exact_of_small (by decide)),
    small (by decide)⟩

/-- Where integers are rounded, the assignment returned may cost more than another. -/
theorem assign_rounds :
    (ofRows (integers [[9007199254741002, 9007199254741001],
        [9007199254741001, 9007199254740999]])).assign = .ok [1, 0] ∧
      ¬ Least [[9007199254741002, 9007199254741001],
        [9007199254741001, 9007199254740999]] [1, 0] := by
  refine ⟨(assign_eq_ok_iff (by decide)).mpr ⟨by decide, by decide +kernel, by decide +kernel⟩,
    fun least => ?_⟩
  have cheaper := least.le [0, 1] (List.Perm.refl _)
  exact absurd cheaper (by decide)

end Grid

end SchemaDrift
