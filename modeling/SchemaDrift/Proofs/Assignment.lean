import Mathlib
import SchemaDrift.Assignment

/-!
# Assignments of least total

An assignment is a permutation of the columns. Prices that pass the check bound every assignment
from below, and the search through all assignments keeps the cheapest one, so either way the
assignment returned is of least total.

* `Assignment.isPermutation_iff` says what the check of a permutation decides.
* `Assignment.prices_le_total` says that feasible prices bound every assignment.
* `Assignment.tryAll_least` says that trying all assignments finds a cheapest one.
* `Assignment.solve_perm` and `Assignment.solve_le` say both of the assignment returned.
* `Assignment.Least` is an assignment of least total, and `Assignment.Optimal` a way to choose
  assignments that always finds one.
* `Assignment.solve_free` says that it chooses free entries only, if some assignment does and no
  entry is negative.
-/

namespace SchemaDrift.Assignment

/-! ## Sums -/

theorem getD_of_lt {xs : List Int} {j : Nat} (h : j < xs.length) : xs.getD j 0 = xs[j] := by
  rw [List.getD_eq_getElem?_getD, List.getElem?_eq_getElem h, Option.getD_some]

theorem sum_map_perm {α : Type} {f : α → Int} {xs ys : List α} (h : xs.Perm ys) :
    sum (xs.map f) = sum (ys.map f) := by
  induction h with
  | nil => rfl
  | cons x _ ih => simp only [List.map_cons, sum, ih]
  | swap x y _ => simp only [List.map_cons, sum]; omega
  | trans _ _ ih ih' => exact ih.trans ih'

theorem sum_getD_range (xs : List Int) :
    sum ((List.range xs.length).map fun j => xs.getD j 0) = sum xs := by
  have listed : (List.range xs.length).map (fun j => xs.getD j 0) = xs := by
    refine List.ext_getElem (by simp) fun i h h' => ?_
    rw [List.getElem_map, List.getElem_range, getD_of_lt h']
  rw [listed]

theorem total_cons (row : List Int) (costs : Costs) (j : Nat) (columns : List Nat) :
    total (row :: costs) (j :: columns) = row.getD j 0 + total costs columns := rfl

/-! ## Permutations -/

/-- The check of a permutation accepts the rearrangements of the first columns. -/
theorem isPermutation_iff {n : Nat} {columns : List Nat} :
    isPermutation n columns = true ↔ columns.Perm (List.range n) := by
  simp only [isPermutation, Bool.and_eq_true, beq_iff_eq, List.all_eq_true, List.contains_eq_mem,
    decide_eq_true_eq]
  constructor
  · rintro ⟨length, covered⟩
    have within : List.Subperm (List.range n) columns := List.nodup_range.subperm covered
    exact (within.perm_of_length_le (by simp [length])).symm
  · intro h
    exact ⟨by rw [h.length_eq, List.length_range], fun j hj => h.mem_iff.mpr hj⟩

/-! ## Prices -/

theorem prices_le_total_of_rows {columnPrices : List Int} :
    ∀ {costs : Costs} {rowPrices : List Int} {columns : List Nat},
      (∀ row ∈ costs, row.length = columnPrices.length) → rowPrices.length = costs.length →
      columns.length = costs.length → (∀ j ∈ columns, j < columnPrices.length) →
      (∀ e ∈ costs.zip rowPrices, ∀ d ∈ e.1.zip columnPrices, e.2 + d.2 ≤ d.1) →
      sum rowPrices + sum (columns.map fun j => columnPrices.getD j 0) ≤ total costs columns
  | [], [], [], _, _, _, _, _ => Int.le_refl 0
  | row :: costs, p :: rowPrices, j :: columns, square, rows, chosen, bounded, feasible => by
    have hj : j < columnPrices.length := bounded j List.mem_cons_self
    have hrow : j < row.length := by rw [square row List.mem_cons_self]; exact hj
    have entry : (row[j], columnPrices[j]) ∈ row.zip columnPrices :=
      List.mem_iff_getElem.mpr ⟨j, by rw [List.length_zip]; omega, List.getElem_zip⟩
    have first : p + columnPrices[j] ≤ row[j] :=
      feasible (row, p) List.mem_cons_self (row[j], columnPrices[j]) entry
    have rest := prices_le_total_of_rows
      (fun r hr => square r (List.mem_cons_of_mem _ hr)) (by simpa using rows)
      (by simpa using chosen) (fun i hi => bounded i (List.mem_cons_of_mem _ hi))
      (fun e he => feasible e (List.mem_cons_of_mem _ he))
    rw [total_cons, List.map_cons]
    show p + sum rowPrices + (columnPrices.getD j 0 + sum _) ≤ _
    rw [getD_of_lt hj, getD_of_lt hrow]
    omega

/-- No assignment costs less than all feasible prices together. -/
theorem prices_le_total {costs : Costs} {prices : Prices Int} (square : isSquare costs = true)
    (feasible : isFeasible costs prices = true) {columns : List Nat}
    (h : columns.Perm (List.range costs.length)) :
    sum prices.rows + sum prices.columns ≤ total costs columns := by
  simp only [isFeasible, Bool.and_eq_true, beq_iff_eq, List.all_eq_true, decide_eq_true_eq]
    at feasible
  obtain ⟨⟨rows, length⟩, feasible⟩ := feasible
  simp only [isSquare, List.all_eq_true, beq_iff_eq] at square
  have rows_length : ∀ row ∈ costs, row.length = prices.columns.length :=
    fun row hrow => (square row hrow).trans length.symm
  have bound := prices_le_total_of_rows rows_length rows
    (by rw [h.length_eq, List.length_range])
    (fun j hj => by rw [length]; exact List.mem_range.mp (h.mem_iff.mp hj)) feasible
  rw [← length] at h
  rw [sum_map_perm h, sum_getD_range] at bound
  exact bound

/-! ## Trying all assignments -/

theorem cheaper_eq_none {xs : List (Int × List Nat)} (h : cheaper xs = none) : xs = [] := by
  cases xs with
  | nil => rfl
  | cons z zs =>
    unfold cheaper at h
    split at h
    · exact nomatch h
    · split at h <;> exact nomatch h

theorem cheaper_le {xs : List (Int × List Nat)} {x : Int × List Nat} (h : cheaper xs = some x) :
    x ∈ xs ∧ ∀ y ∈ xs, x.1 ≤ y.1 := by
  induction xs generalizing x with
  | nil => exact nomatch h
  | cons z zs ih =>
    unfold cheaper at h
    split at h
    · next none =>
      obtain rfl := cheaper_eq_none none
      obtain rfl : z = x := Option.some.inj h
      exact ⟨List.mem_singleton_self z, fun y hy =>
        Int.le_of_eq (congrArg _ (List.mem_singleton.mp hy).symm)⟩
    · next w found =>
      obtain ⟨hw, least⟩ := ih found
      split at h
      · next below =>
        obtain rfl : w = x := Option.some.inj h
        refine ⟨List.mem_cons_of_mem z hw, fun y hy => ?_⟩
        rcases List.mem_cons.mp hy with rfl | hy
        · omega
        · exact least y hy
      · next above =>
        obtain rfl : z = x := Option.some.inj h
        refine ⟨List.mem_cons_self, fun y hy => ?_⟩
        rcases List.mem_cons.mp hy with rfl | hy
        · exact Int.le_refl _
        · have := least y hy
          omega

/-- Trying all ways to give the rows the free columns finds one, and none is cheaper. -/
theorem tryAll_least (costs : Costs) (free : List Nat) (h : free.length = costs.length) :
    ∃ columns, tryAll costs free = some (total costs columns, columns) ∧ columns.Perm free ∧
      ∀ others : List Nat, others.Perm free → total costs columns ≤ total costs others := by
  induction costs generalizing free with
  | nil =>
    obtain rfl : free = [] := List.eq_nil_of_length_eq_zero h
    exact ⟨[], rfl, .nil, fun others ho =>
      Int.le_of_eq (congrArg _ (List.perm_nil.mp ho).symm)⟩
  | cons row costs ih =>
    -- Whichever free column the first row gets, the others are given out in the best way.
    have best (j : Nat) (hj : j ∈ free) := ih (free.erase j) (by
      rw [List.length_erase_of_mem hj, h]; rfl)
    obtain ⟨candidates, listed⟩ : ∃ candidates, candidates = free.filterMap fun j =>
      (tryAll costs (free.erase j)).map fun found => (row.getD j 0 + found.1, j :: found.2) :=
      ⟨_, rfl⟩
    have candidate {j : Nat} {columns : List Nat} (hj : j ∈ free)
        (found : tryAll costs (free.erase j) = some (total costs columns, columns)) :
        (total (row :: costs) (j :: columns), j :: columns) ∈ candidates := by
      rw [listed, List.mem_filterMap]
      exact ⟨j, hj, by rw [found]; rfl⟩
    have tried : tryAll (row :: costs) free = cheaper candidates := by rw [listed]; rfl
    rw [tried]
    rcases hc : cheaper candidates with _ | x
    · obtain ⟨j, hj⟩ : ∃ j, j ∈ free := List.exists_mem_of_length_pos (by rw [h]; simp)
      obtain ⟨columns, found, -⟩ := best j hj
      have impossible := candidate hj found
      rw [cheaper_eq_none hc] at impossible
      cases impossible
    · obtain ⟨chosen, least⟩ := cheaper_le hc
      rw [listed, List.mem_filterMap] at chosen
      obtain ⟨j, hj, made⟩ := chosen
      obtain ⟨columns, found, arranged, -⟩ := best j hj
      rw [found] at made
      obtain rfl : (total (row :: costs) (j :: columns), j :: columns) = x := Option.some.inj made
      refine ⟨j :: columns, rfl, (arranged.cons j).trans (List.perm_cons_erase hj).symm, ?_⟩
      intro others ho
      cases others with
      | nil => exact absurd (ho.length_eq.trans h) (by simp)
      | cons k rest =>
        obtain ⟨hk, hrest⟩ := List.cons_perm_iff_perm_erase.mp ho
        obtain ⟨columns', found', -, least'⟩ := best k hk
        have first := least _ (candidate hk found')
        have second := least' rest hrest
        rw [total_cons row costs k columns'] at first
        rw [total_cons row costs k rest]
        omega

/-! ## The assignment returned -/

theorem solve_least (costs : Costs) :
    (solve costs).Perm (List.range costs.length) ∧
      ∀ columns : List Nat, columns.Perm (List.range costs.length) →
        total costs (solve costs) ≤ total costs columns := by
  unfold solve
  split
  · next p proposed =>
    have certified : isCertified costs p = true := (Option.filter_eq_some_iff.mp proposed).2
    simp only [isCertified, Bool.and_eq_true, beq_iff_eq] at certified
    obtain ⟨⟨⟨square, arranged⟩, feasible⟩, tight⟩ := certified
    refine ⟨isPermutation_iff.mp arranged, fun columns h => ?_⟩
    rw [tight]
    exact prices_le_total square feasible h
  · obtain ⟨columns, tried, arranged, least⟩ :=
      tryAll_least costs (List.range costs.length) List.length_range
    rw [tried]
    exact ⟨arranged, least⟩

/-- The assignment returned gives out every column once. -/
theorem solve_perm (costs : Costs) : (solve costs).Perm (List.range costs.length) :=
  (solve_least costs).1

/-- No assignment costs less than the one returned. -/
theorem solve_le (costs : Costs) {columns : List Nat}
    (h : columns.Perm (List.range costs.length)) :
    total costs (solve costs) ≤ total costs columns :=
  (solve_least costs).2 columns h

/-- An assignment of least total: it gives out every column once, and no assignment costs less. -/
structure Least (costs : Costs) (columns : List Nat) : Prop where
  perm : columns.Perm (List.range costs.length)
  le : ∀ others : List Nat, others.Perm (List.range costs.length) →
    total costs columns ≤ total costs others

/-- A way to choose assignments that always finds one of least total. -/
def Optimal (align : Costs → List Nat) : Prop :=
  ∀ costs, isSquare costs = true → Least costs (align costs)

theorem least_solve (costs : Costs) : Least costs (solve costs) :=
  ⟨solve_perm costs, fun _ => solve_le costs⟩

theorem solve_optimal : Optimal solve := fun costs _ => least_solve costs

theorem Least.total_eq {costs : Costs} {p q : List Nat} (hp : Least costs p) (hq : Least costs q) :
    total costs p = total costs q :=
  Int.le_antisymm (hp.le q hq.perm) (hq.le p hp.perm)

/-! ## Free assignments -/

theorem getD_nonneg {row : List Int} (h : ∀ c ∈ row, 0 ≤ c) (j : Nat) : 0 ≤ row.getD j 0 := by
  by_cases hj : j < row.length
  · rw [getD_of_lt hj]
    exact h _ (List.getElem_mem hj)
  · rw [List.getD_eq_getElem?_getD, List.getElem?_eq_none (Nat.le_of_not_lt hj)]
    exact Int.le_refl 0

theorem total_nonneg : ∀ {costs : Costs} (columns : List Nat),
    (∀ row ∈ costs, ∀ c ∈ row, 0 ≤ c) → 0 ≤ total costs columns
  | [], _, _ => Int.le_refl 0
  | _ :: _, [], _ => Int.le_refl 0
  | row :: costs, j :: columns, h => by
    have first := getD_nonneg (h row List.mem_cons_self) j
    have rest := total_nonneg columns fun r hr => h r (List.mem_cons_of_mem row hr)
    rw [total_cons]
    omega

theorem free_of_total_le : ∀ {costs : Costs} {columns : List Nat},
    (∀ row ∈ costs, ∀ c ∈ row, 0 ≤ c) → total costs columns ≤ 0 →
      ∀ e ∈ costs.zip columns, e.1.getD e.2 0 = 0
  | [], _, _, _, _, he => nomatch he
  | _ :: _, [], _, _, _, he => nomatch he
  | row :: costs, j :: columns, h, free, e, he => by
    have first := getD_nonneg (h row List.mem_cons_self) j
    have others : ∀ r ∈ costs, ∀ c ∈ r, 0 ≤ c := fun r hr => h r (List.mem_cons_of_mem row hr)
    have rest := total_nonneg columns others
    rw [total_cons] at free
    rcases List.mem_cons.mp he with rfl | he
    · show row.getD j 0 = 0
      omega
    · exact free_of_total_le others (by omega) e he

/-- If no entry is negative and some assignment is free, the one returned chooses free entries
only. -/
theorem solve_free {costs : Costs} (nonneg : ∀ row ∈ costs, ∀ c ∈ row, 0 ≤ c)
    {columns : List Nat} (arranged : columns.Perm (List.range costs.length))
    (free : total costs columns ≤ 0) : ∀ e ∈ costs.zip (solve costs), e.1.getD e.2 0 = 0 :=
  free_of_total_le nonneg (Int.le_trans (solve_le costs arranged) free)

end SchemaDrift.Assignment
