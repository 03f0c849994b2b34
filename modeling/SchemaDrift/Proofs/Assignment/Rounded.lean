import SchemaDrift.Assignment.Rounded
import SchemaDrift.Proofs.Assignment.Following
import SchemaDrift.Proofs.Number
import SchemaDrift.Proofs.Rounding

/-!
# The search in doubles

Doubles follow the whole numbers as long as all values are multiples of one power of two and few
enough of it. If the costs leave that much room, the search in doubles rounds nothing, takes the
same steps as the search in whole numbers and finds an assignment of least total.

* `rounded_follows`: doubles follow the whole numbers, in units of `2 ^ -1074`.
* `exact_of_isExact`: the check of costs leaves enough room.
* `solveRounded_eq_search`: the assignment for a square of doubles is always the one that the search
  in doubles finds.
-/

namespace SchemaDrift.Assignment

/-! ## Doubles that are multiples of a unit -/

/-- Whether a double has the given exact value, and that is a multiple of a unit. -/
def Stands (unit : Nat) (x : Double) (a : Int) : Prop := x.units = some a ∧ (unit : Int) ∣ a

theorem related_below {x y : Double} {a b : Int} (hx : x.units = some a) (hy : y.units = some b) :
    Number.related .below (.double x) (.double y) = decide (a < b) := by
  rw [Number.related, Number.compare?, Number.place_double_iff.mpr hx,
    Number.place_double_iff.mpr hy]
  show Relation.holds .below (if a < b then .lt else if a = b then .eq else .gt) = _
  split
  · next less => rw [decide_eq_true less]; rfl
  · next notLess =>
    rw [decide_eq_false notLess]
    split <;> rfl

theorem related_infinite {x : Double} {a : Int} (hx : x.units = some a) :
    Number.related .below (.double x) (.double (.infinite false)) = true := by
  rw [Number.related, Number.compare?, Number.place_double_iff.mpr hx]
  rfl

/-- Doubles follow the whole numbers up to a limit, if all multiples of a unit up to there are
exact. -/
theorem rounded_follows (unit : Nat) (limit : Int)
    (unrounded : ∀ a : Int, (unit : Int) ∣ a → -limit ≤ a → a ≤ limit → Double.IsExact a.natAbs) :
    Arithmetic.rounded.Follows (Stands unit) limit where
  zero := ⟨rfl, Int.dvd_zero _⟩
  plus := by
    intro x y a b hx hy lower upper
    have multiple := Int.dvd_add hx.2 hy.2
    exact ⟨Double.add_units hx.1 hy.1 (unrounded _ multiple lower upper), multiple⟩
  minus := by
    intro x y a b hx hy lower upper
    have multiple := Int.dvd_sub hx.2 hy.2
    exact ⟨Double.sub_units hx.1 hy.1 (unrounded _ multiple lower upper), multiple⟩
  less := fun _ _ _ _ hx hy => related_below hx.1 hy.1
  reachable := fun _ _ hx => related_infinite hx.1

/-! ## The check of costs -/

theorem largestCost_eq (costs : Costs) :
    largestCost costs = costs.flatten.foldl (fun largest c => max largest c.natAbs) 0 := by
  rw [largestCost, List.foldl_flatten]

theorem commonUnit_eq (costs : Costs) :
    commonUnit costs = costs.flatten.foldl (fun unit c => Nat.gcd unit c.natAbs) ceiling := by
  rw [commonUnit, List.foldl_flatten]

theorem le_foldl_max (cs : List Int) (start : Nat) :
    start ≤ cs.foldl (fun largest c => max largest c.natAbs) start ∧
      ∀ c ∈ cs, c.natAbs ≤ cs.foldl (fun largest c => max largest c.natAbs) start := by
  induction cs generalizing start with
  | nil => exact ⟨Nat.le_refl _, fun c hc => absurd hc List.not_mem_nil⟩
  | cons c cs ih =>
    obtain ⟨before, rest⟩ := ih (max start c.natAbs)
    refine ⟨Nat.le_trans (Nat.le_max_left _ _) before, fun d hd => ?_⟩
    rcases List.mem_cons.mp hd with rfl | hd
    · exact Nat.le_trans (Nat.le_max_right _ _) before
    · exact rest d hd

theorem foldl_gcd_dvd (cs : List Int) (start : Nat) :
    cs.foldl (fun unit c => Nat.gcd unit c.natAbs) start ∣ start ∧
      ∀ c ∈ cs, cs.foldl (fun unit c => Nat.gcd unit c.natAbs) start ∣ c.natAbs := by
  induction cs generalizing start with
  | nil => exact ⟨Nat.dvd_refl _, fun c hc => absurd hc List.not_mem_nil⟩
  | cons c cs ih =>
    obtain ⟨before, rest⟩ := ih (Nat.gcd start c.natAbs)
    refine ⟨Nat.dvd_trans before (Nat.gcd_dvd_left _ _), fun d hd => ?_⟩
    rcases List.mem_cons.mp hd with rfl | hd
    · exact Nat.dvd_trans before (Nat.gcd_dvd_right _ _)
    · exact rest d hd

/-- No cost exceeds the largest. -/
theorem natAbs_le_largestCost {costs : Costs} {row : List Int} (hrow : row ∈ costs) {c : Int}
    (hc : c ∈ row) : c.natAbs ≤ largestCost costs := by
  rw [largestCost_eq]
  exact (le_foldl_max costs.flatten 0).2 c (List.mem_flatten_of_mem hrow hc)

/-- All costs are multiples of their common unit. -/
theorem commonUnit_dvd {costs : Costs} {row : List Int} (hrow : row ∈ costs) {c : Int}
    (hc : c ∈ row) : (commonUnit costs : Int) ∣ c := by
  rw [commonUnit_eq, Int.natCast_dvd]
  exact (foldl_gcd_dvd costs.flatten ceiling).2 c (List.mem_flatten_of_mem hrow hc)

/-- The largest cost has every property that all costs and zero have. -/
theorem largestCost_induct {P : Nat → Prop} (zero : P 0) {costs : Costs}
    (each : ∀ row ∈ costs, ∀ c ∈ row, P c.natAbs) : P (largestCost costs) := by
  have all : ∀ (cs : List Int) (start : Nat), P start → (∀ c ∈ cs, P c.natAbs) →
      P (cs.foldl (fun largest c => max largest c.natAbs) start) := by
    intro cs
    induction cs with
    | nil => exact fun start first _ => first
    | cons c cs ih =>
      intro start first each
      refine ih _ ?_ fun d hd => each d (List.mem_cons_of_mem c hd)
      show P (max start c.natAbs)
      rcases Nat.le_total start c.natAbs with le | le
      · rw [Nat.max_eq_right le]
        exact each c List.mem_cons_self
      · rw [Nat.max_eq_left le]
        exact first
  rw [largestCost_eq]
  refine all _ 0 zero fun c hc => ?_
  obtain ⟨row, hrow, hc⟩ := List.mem_flatten.mp hc
  exact each row hrow c hc

theorem dvd_commonUnit {costs : Costs} {d : Nat} (start : d ∣ ceiling)
    (each : ∀ row ∈ costs, ∀ c ∈ row, d ∣ c.natAbs) : d ∣ commonUnit costs := by
  have all : ∀ (cs : List Int) (start : Nat), d ∣ start → (∀ c ∈ cs, d ∣ c.natAbs) →
      d ∣ cs.foldl (fun unit c => Nat.gcd unit c.natAbs) start := by
    intro cs
    induction cs with
    | nil => exact fun start first _ => first
    | cons c cs ih =>
      exact fun start first each => ih _ (Nat.dvd_gcd first (each c List.mem_cons_self))
        fun d hd => each d (List.mem_cons_of_mem c hd)
  rw [commonUnit_eq]
  refine all _ ceiling start fun c hc => ?_
  obtain ⟨row, hrow, hc⟩ := List.mem_flatten.mp hc
  exact each row hrow c hc

theorem ceiling_eq : ceiling = 2 ^ 2098 := by
  unfold ceiling
  generalize 2098 = e
  rfl

/-- The common unit is a power of two. -/
theorem commonUnit_eq_pow (costs : Costs) : ∃ e, commonUnit costs = 2 ^ e := by
  have divides : commonUnit costs ∣ ceiling := by
    rw [commonUnit_eq]
    exact (foldl_gcd_dvd costs.flatten ceiling).1
  rw [ceiling_eq] at divides
  obtain ⟨e, -, power⟩ := (Nat.dvd_prime_pow Nat.prime_two).mp divides
  exact ⟨e, power⟩

/-- If the check succeeds, no value of up to sixteen costs is rounded. -/
theorem exact_of_isExact {costs : Costs} (h : isExact costs = true) {a : Int}
    (multiple : (commonUnit costs : Int) ∣ a) (bound : a.natAbs ≤ 16 * largestCost costs) :
    Double.IsExact a.natAbs := by
  obtain ⟨digits, range⟩ := Bool.and_eq_true_iff.mp h
  have digits := of_decide_eq_true digits
  have range := of_decide_eq_true range
  have least : a.natAbs ≤ reach costs := by
    unfold reach
    rw [Nat.mul_right_comm]
    exact Nat.le_trans bound (Nat.le_mul_of_pos_right _ (Nat.succ_pos _))
  obtain ⟨e, power⟩ := commonUnit_eq_pow costs
  obtain ⟨k, value⟩ := Int.natCast_dvd.mp multiple
  rw [power] at value digits
  rw [ceiling_eq] at range
  refine ⟨k, e, value.trans (Nat.mul_comm _ _), ?_, Nat.lt_of_le_of_lt least range⟩
  have few : 2 ^ e * k ≤ 2 ^ e * 9007199254740992 := by
    rw [← value, Nat.mul_comm (2 ^ e)]
    exact Nat.le_trans least digits
  exact Nat.le_of_mul_le_mul_left few (Nat.two_pow_pos e)

/-! ## The assignment for doubles -/

theorem units_of_isFinite {x : Double} (h : x.isFinite = true) :
    x.units = some (x.units.getD 0) := by
  cases x with
  | nan => cases h
  | infinite _ => cases h
  | finite negative scale fraction => rfl

/-- If no sum is rounded, the search in doubles finds what the search in whole numbers finds for
the exact values. -/
theorem propose_rounded {rows : List (List Double)}
    (finite : ∀ row ∈ rows, ∀ x ∈ row, x.isFinite = true)
    (unrounded : isExact (exactCosts rows) = true) :
    (propose .rounded rows).map (·.columns) =
      (propose .whole (exactCosts rows)).map (·.columns) := by
  have follows := rounded_follows (commonUnit (exactCosts rows))
    (16 * largestCost (exactCosts rows)) fun a multiple lower upper =>
      exact_of_isExact unrounded multiple (by omega)
  refine propose_follows (largestCost (exactCosts rows)) follows (Int.le_refl _) ?_ ?_
    (Int.natCast_nonneg _)
  · refine List.forall₂_map_right_iff.mpr (List.forall₂_same.mpr fun row hrow => ?_)
    refine List.forall₂_map_right_iff.mpr (List.forall₂_same.mpr fun x hx => ?_)
    exact ⟨units_of_isFinite (finite row hrow x hx),
      commonUnit_dvd (List.mem_map_of_mem hrow) (List.mem_map_of_mem hx)⟩
  · intro row hrow c hc
    have := natAbs_le_largestCost hrow hc
    omega

theorem isSquare_exactCosts {rows : List (List Double)}
    (square : ∀ row ∈ rows, row.length = rows.length) : isSquare (exactCosts rows) = true := by
  simp only [isSquare, exactCosts, List.all_eq_true, beq_iff_eq, List.forall_mem_map,
    List.length_map]
  exact square

/-- The assignment for a square of doubles is the one that the search in doubles finds. -/
theorem solveRounded_eq_search {rows : List (List Double)}
    (square : ∀ row ∈ rows, row.length = rows.length)
    (finite : ∀ row ∈ rows, ∀ x ∈ row, x.isFinite = true) :
    solveRounded rows = (propose .rounded rows).map (·.columns) := by
  unfold solveRounded
  dsimp only
  split
  · next unrounded =>
    rw [propose_rounded finite unrounded, solve_eq_search (isSquare_exactCosts square)]
  · rfl

end SchemaDrift.Assignment
