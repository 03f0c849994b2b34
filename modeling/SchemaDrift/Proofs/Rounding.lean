import Mathlib
import SchemaDrift.Double.Rounding

/-!
# Exact values and the range of the doubles

A value that is a double is its own nearest double. So a sum of doubles is exact if it is a
multiple of a power of two, and no more than `2 ^ 53` times that power.

* `Double.IsExact` says of a value, counted in units of `2 ^ -1074`, that it has so few digits.
* `Double.nearest_units`: rounding changes no such value.
* `Double.ofInt_units`, `Double.add_units` and `Double.sub_units`: neither does the step from an
  integer to its double, a sum or a difference.
* `Double.ofInt_units_of_units`: nor does that step from an integer of any size that is a double.
* `Double.isFinite_ofInt` says which integers are in the range of the doubles.
-/

namespace SchemaDrift.Double

/-! ## The double of a rank -/

/-- A significand of at most 53 bits, and of all 53 unless the exponent is the least one, stands
in the rank as it is. -/
theorem units_ofRank (negative : Bool) {s q : Nat} (small : q < 9007199254740992)
    (full : s = 0 ∨ 4503599627370496 ≤ q) (hs : s ≤ 2045) :
    (ofRank negative (s * fractions + q)).units =
      some (if negative then -((q * 2 ^ s : Nat) : Int) else ((q * 2 ^ s : Nat) : Int)) := by
  have fields : ∃ scale : Fin 2047, ∃ fraction : Fin 4503599627370496,
      ofRank negative (s * fractions + q) = .finite negative scale fraction ∧
        significand scale fraction = q ∧ scale.val - 1 = s := by
    unfold ofRank fractions
    by_cases implicit : 4503599627370496 ≤ q
    · have scale : (s * 4503599627370496 + q) / 4503599627370496 = s + 1 := by omega
      have fraction : (s * 4503599627370496 + q) % 4503599627370496 = q - 4503599627370496 := by
        omega
      rw [dif_pos (by omega)]
      refine ⟨_, _, rfl, ?_, ?_⟩
      · unfold significand fractions
        rw [if_neg (by simp only [scale]; omega)]
        simp only [fraction]
        omega
      · simp only [scale]
        omega
    · obtain rfl : s = 0 := full.resolve_right implicit
      have scale : (0 * 4503599627370496 + q) / 4503599627370496 = 0 := by omega
      have fraction : (0 * 4503599627370496 + q) % 4503599627370496 = q := by omega
      rw [dif_pos (by omega)]
      refine ⟨_, _, rfl, ?_, ?_⟩
      · unfold significand
        rw [if_pos (by simp only [scale])]
        simp only [fraction]
      · simp only [scale]
  obtain ⟨scale, fraction, same, digits, exponent⟩ := fields
  rw [same, units, magnitude, digits, exponent]
  rfl

/-! ## The last bit that is kept -/

/-- The last bit that a double near a value keeps, both counted in units of `2 ^ -1074`. -/
def grain (m : Nat) : Nat :=
  if m / 2 ^ (m.log2 - 53) < 9007199254740992 then m.log2 - 53 else m.log2 - 53 + 1

/-- The value keeps 53 bits, or the last bit is the least one. -/
theorem grain_bounds {m : Nat} (positive : m ≠ 0) :
    m < 9007199254740992 * 2 ^ grain m ∧
      (grain m = 0 ∨ 4503599627370496 * 2 ^ grain m ≤ m) := by
  have above : m < 2 ^ (m.log2 + 1) := Nat.lt_log2_self
  have below : 2 ^ m.log2 ≤ m := Nat.log2_self_le positive
  unfold grain
  rcases Nat.lt_or_ge m.log2 53 with few | many
  · rw [Nat.sub_eq_zero_of_le (Nat.le_of_lt few), Nat.pow_zero, Nat.div_one]
    have : m < 2 ^ 53 := Nat.lt_of_lt_of_le above (Nat.pow_le_pow_right (by decide) few)
    rw [if_pos (by omega)]
    exact ⟨by omega, .inl rfl⟩
  · obtain ⟨e, he⟩ := Nat.exists_eq_add_of_le many
    rw [he] at above below ⊢
    have split : 2 ^ (53 + e) = 9007199254740992 * 2 ^ e := by rw [Nat.pow_add]
    have next : 2 ^ (53 + e + 1) = 9007199254740992 * 2 ^ (e + 1) := by
      rw [show 53 + e + 1 = 53 + (e + 1) by omega, Nat.pow_add]
    have twice : 2 ^ (e + 1) = 2 * 2 ^ e := by rw [Nat.pow_succ, Nat.mul_comm]
    have large : ¬ m / 2 ^ e < 9007199254740992 := by
      rw [Nat.div_lt_iff_lt_mul (Nat.two_pow_pos e)]
      omega
    rw [Nat.add_sub_cancel_left, if_neg large]
    exact ⟨by omega, .inr (by omega)⟩

/-- A value, counted in units of `2 ^ -1074`, that has at most 53 digits before its trailing zeros,
or is a power of two, and is in the range of the doubles. -/
def IsExact (m : Nat) : Prop :=
  ∃ k e, m = k * 2 ^ e ∧ k ≤ 9007199254740992 ∧ m < 2 ^ 2098

/-- All digits of an exact value are kept. -/
theorem IsExact.grain_dvd {m : Nat} (h : IsExact m) (positive : m ≠ 0) : 2 ^ grain m ∣ m := by
  obtain ⟨k, e, value, digits, -⟩ := h
  rcases (grain_bounds positive).2 with least | full
  · rw [least]
    exact Nat.one_dvd m
  · rcases Nat.lt_or_ge e (grain m) with fewer | enough
    · obtain ⟨d, hd⟩ := Nat.exists_eq_add_of_lt fewer
      have power : 2 ^ grain m = 2 * 2 ^ d * 2 ^ e := by
        rw [hd, Nat.pow_succ, Nat.pow_add]
        ring
      have one_le : 1 ≤ 2 ^ d := Nat.one_le_two_pow
      have bound : 4503599627370496 * (2 * 2 ^ d * 2 ^ e) ≤ k * 2 ^ e := by
        rw [← power, ← value]
        exact full
      have large : 9007199254740992 * 2 ^ d ≤ k := by
        refine Nat.le_of_mul_le_mul_right (Nat.le_trans (Nat.le_of_eq ?_) bound)
          (Nat.two_pow_pos e)
        ring
      have d_one : 2 ^ d = 1 := by omega
      have k_eq : k = 4503599627370496 * 2 := by omega
      rw [power, d_one, value, k_eq]
      exact ⟨4503599627370496, by ring⟩
    · have divides : 2 ^ grain m ∣ k * 2 ^ e :=
        Nat.dvd_mul_left_of_dvd (Nat.pow_dvd_pow 2 enough) k
      rwa [← value] at divides

/-! ## Rounding -/

section

variable {num t : Nat}

/-- A quotient by a power of two and the same value in units of `2 ^ -1074`, measured in the same
larger unit. -/
theorem inUnits_cross (num : Nat) {t : Nat} (ht : t ≤ 1074) (s : Nat) :
    (inUnits num (2 ^ t) ((s : Int) - 1074)).1 * 2 ^ s =
      num * 2 ^ (1074 - t) * (inUnits num (2 ^ t) ((s : Int) - 1074)).2 := by
  show num * 2 ^ (-((s : Int) - 1074)).toNat * 2 ^ s =
    num * 2 ^ (1074 - t) * (2 ^ t * 2 ^ ((s : Int) - 1074).toNat)
  have exponents : (-((s : Int) - 1074)).toNat + s = 1074 - t + (t + ((s : Int) - 1074).toNat) := by
    omega
  rw [Nat.mul_assoc, ← Nat.pow_add, Nat.mul_assoc, ← Nat.pow_add, ← Nat.pow_add, exponents]

theorem inUnits_div (num : Nat) (ht : t ≤ 1074) (s : Nat) :
    (inUnits num (2 ^ t) ((s : Int) - 1074)).1 / (inUnits num (2 ^ t) ((s : Int) - 1074)).2 =
      num * 2 ^ (1074 - t) / 2 ^ s := by
  have cross := inUnits_cross num ht s
  have positive : 0 < (inUnits num (2 ^ t) ((s : Int) - 1074)).2 :=
    Nat.mul_pos (Nat.two_pow_pos _) (Nat.two_pow_pos _)
  rw [← Nat.mul_div_mul_right _ _ (Nat.two_pow_pos s), cross, Nat.mul_comm _ (2 ^ s),
    Nat.mul_div_mul_right _ _ positive]

theorem log2_mul_two_pow {n : Nat} (positive : n ≠ 0) (e : Nat) :
    (n * 2 ^ e).log2 = n.log2 + e := by
  have positive' : n * 2 ^ e ≠ 0 := Nat.mul_ne_zero positive (Nat.two_pow_pos e).ne'
  refine (Nat.log2_eq_iff positive').mpr ⟨?_, ?_⟩
  · rw [Nat.pow_add]
    exact Nat.mul_le_mul_right _ (Nat.log2_self_le positive)
  · rw [show n.log2 + e + 1 = n.log2 + 1 + e by omega, Nat.pow_add]
    exact Nat.mul_lt_mul_of_pos_right Nat.lt_log2_self (Nat.two_pow_pos e)

theorem lastBit_eq (positive : num ≠ 0) (ht : t ≤ 1074) :
    lastBit num (2 ^ t) = (grain (num * 2 ^ (1074 - t)) : Int) - 1074 := by
  have low : max (-1074) ((num.log2 : Int) - (2 ^ t).log2 - 53) =
      (((num * 2 ^ (1074 - t)).log2 - 53 : Nat) : Int) - 1074 := by
    rw [log2_mul_two_pow positive, Nat.log2_two_pow]
    omega
  unfold lastBit grain
  rw [low]
  dsimp only
  rw [inUnits_div num ht]
  split
  · rfl
  · push_cast
    omega

theorem roundHalfEven_mul (q : Nat) {d : Nat} (positive : 0 < d) : roundHalfEven (q * d) d = q := by
  unfold roundHalfEven
  rw [Nat.mul_div_cancel _ positive, Nat.mul_mod_left]
  exact if_neg (by omega)

/-- The rank is made of the exponent of the last bit that is kept and of the rounded digits. -/
theorem nearestRank_rounded (positive : num ≠ 0) (ht : t ≤ 1074) {m : Nat}
    (value : m = num * 2 ^ (1074 - t)) :
    nearestRank num (2 ^ t) = grain m * fractions +
      roundHalfEven (inUnits num (2 ^ t) ((grain m : Int) - 1074)).1
        (inUnits num (2 ^ t) ((grain m : Int) - 1074)).2 := by
  unfold nearestRank
  rw [if_neg positive, lastBit_eq positive ht, ← value]
  dsimp only
  rw [Int.sub_add_cancel, Int.toNat_natCast]

/-- If all digits are kept, the rank is made of them and of the exponent. -/
theorem nearestRank_eq (positive : num ≠ 0) (ht : t ≤ 1074) {m : Nat}
    (value : m = num * 2 ^ (1074 - t)) (kept : 2 ^ grain m ∣ m) :
    nearestRank num (2 ^ t) = grain m * fractions + m / 2 ^ grain m := by
  have cross := inUnits_cross num ht (grain m)
  have room : 0 < (inUnits num (2 ^ t) ((grain m : Int) - 1074)).2 :=
    Nat.mul_pos (Nat.two_pow_pos _) (Nat.two_pow_pos _)
  rw [← value] at cross
  have whole : (inUnits num (2 ^ t) ((grain m : Int) - 1074)).1 =
      m / 2 ^ grain m * (inUnits num (2 ^ t) ((grain m : Int) - 1074)).2 := by
    refine Nat.eq_of_mul_eq_mul_right (Nat.two_pow_pos (grain m)) ?_
    rw [cross, Nat.mul_right_comm, Nat.div_mul_cancel kept]
  rw [nearestRank_rounded positive ht value, whole, roundHalfEven_mul _ room]

/-- Rounding changes no exact value. -/
theorem nearest_units (negative : Bool) (ht : t ≤ 1074) {m : Nat}
    (value : m = num * 2 ^ (1074 - t)) (h : IsExact m) :
    (nearest negative num (2 ^ t)).units = some (if negative then -(m : Int) else m) := by
  unfold nearest
  by_cases zero : num = 0
  · obtain rfl : m = 0 := by rw [value, zero, Nat.zero_mul]
    have least := units_ofRank negative (s := 0) (q := 0) (by decide) (.inl rfl) (by decide)
    rw [zero]
    exact least
  · have positive : m ≠ 0 := value ▸ Nat.mul_ne_zero zero (Nat.two_pow_pos _).ne'
    have kept := h.grain_dvd positive
    obtain ⟨below, full⟩ := grain_bounds positive
    have restored : m / 2 ^ grain m * 2 ^ grain m = m := Nat.div_mul_cancel kept
    have range : grain m ≤ 2045 := by
      rcases full with least | full
      · omega
      · obtain ⟨k, e, -, -, inside⟩ := h
        have power : 2 ^ (52 + grain m) < 2 ^ 2098 :=
          Nat.lt_of_le_of_lt (by rw [Nat.pow_add]; exact full) inside
        have := (Nat.pow_lt_pow_iff_right (by decide)).mp power
        omega
    rw [nearestRank_eq zero ht value kept, units_ofRank negative ?_ ?_ range, restored]
    · exact (Nat.div_lt_iff_lt_mul (Nat.two_pow_pos _)).mpr below
    · exact full.imp_right (Nat.le_div_iff_mul_le (Nat.two_pow_pos _)).mpr

end

theorem one_eq : one = 2 ^ 1074 := by
  unfold one
  generalize 1074 = e
  rfl

theorem signed_natAbs (n : Int) :
    (if decide (n < 0) then -(n.natAbs : Int) else (n.natAbs : Int)) = n := by
  by_cases negative : n < 0
  · rw [if_pos (decide_eq_true negative)]
    omega
  · rw [if_neg (by rw [decide_eq_false negative]; decide)]
    omega

/-- The double of an integer with an exact value has this value. -/
theorem ofInt_units_of_exact {n : Int} (h : IsExact (n.natAbs * 2 ^ 1074)) :
    (ofInt n).units = some (n * one) := by
  have value : n.natAbs * 2 ^ 1074 = n.natAbs * 2 ^ (1074 - 0) := by rw [Nat.sub_zero]
  have rounded := nearest_units (decide (n < 0)) (t := 0) (Nat.zero_le _) value h
  rw [Nat.pow_zero] at rounded
  have signed : (if decide (n < 0) then -((n.natAbs * 2 ^ 1074 : Nat) : Int)
      else ((n.natAbs * 2 ^ 1074 : Nat) : Int)) = n * one := by
    have sign := congrArg (· * ((2 ^ 1074 : Nat) : Int)) (signed_natAbs n)
    rw [ite_mul, neg_mul, ← Int.natCast_mul] at sign
    rw [one_eq]
    exact sign
  unfold ofInt
  rw [rounded, signed]

/-- The double of an integer of at most 53 bits has its value. -/
theorem ofInt_units {n : Int} (h : n.natAbs ≤ 9007199254740992) :
    (ofInt n).units = some (n * one) := by
  have inside : n.natAbs * 2 ^ 1074 < 2 ^ 2098 := by
    calc n.natAbs * 2 ^ 1074
      _ ≤ 2 ^ 53 * 2 ^ 1074 := Nat.mul_le_mul_right _ h
      _ = 2 ^ (53 + 1074) := (pow_add 2 53 1074).symm
      _ < 2 ^ 2098 := pow_lt_pow_right₀ (by decide) (by decide)
  exact ofInt_units_of_exact ⟨n.natAbs, 1074, rfl, h, inside⟩

/-- The magnitude of a finite double is exact. -/
theorem isExact_magnitude (scale : Fin 2047) (fraction : Fin 4503599627370496) :
    IsExact (magnitude scale fraction) := by
  have digits : significand scale fraction < 2 ^ 53 := by
    unfold significand fractions
    split <;> omega
  refine ⟨_, scale.val - 1, rfl, Nat.le_of_lt digits, ?_⟩
  calc significand scale fraction * 2 ^ (scale.val - 1)
    _ < 2 ^ 53 * 2 ^ (scale.val - 1) := Nat.mul_lt_mul_of_pos_right digits (Nat.two_pow_pos _)
    _ = 2 ^ (53 + (scale.val - 1)) := (pow_add 2 53 _).symm
    _ ≤ 2 ^ 2098 := pow_le_pow_right₀ (by decide) (by omega)

/-- The double of an integer that is a double has its value. -/
theorem ofInt_units_of_units {n : Int} {x : Double} (h : x.units = some (n * one)) :
    (ofInt n).units = some (n * one) := by
  cases x with
  | nan => exact nomatch h
  | infinite negative => exact nomatch h
  | finite negative scale fraction =>
    refine ofInt_units_of_exact ?_
    have same : n.natAbs * 2 ^ 1074 = magnitude scale fraction := by
      have units := congrArg Int.natAbs (Option.some.inj h)
      rw [Int.natAbs_mul, one_eq, Int.natAbs_natCast] at units
      rw [← units]
      cases negative
      · exact Int.natAbs_natCast _
      · rw [if_pos rfl, Int.natAbs_neg, Int.natAbs_natCast]
    rw [same]
    exact isExact_magnitude scale fraction

/-- A sum is not rounded if its value is exact. -/
theorem add_units {x y : Double} {a b : Int} (hx : x.units = some a) (hy : y.units = some b)
    (h : IsExact (a + b).natAbs) : (add x y).units = some (a + b) := by
  cases x with
  | nan => cases hx
  | infinite _ => cases hx
  | finite negative scale fraction =>
    cases y with
    | nan => cases hy
    | infinite _ => cases hy
    | finite negative' scale' fraction' =>
      unfold add
      dsimp only
      rw [hx, hy, Option.getD_some, Option.getD_some]
      split
      · next zero =>
        have least := units_ofRank (negative && negative') (s := 0) (q := 0) (by decide) (.inl rfl)
          (by decide)
        rw [Nat.zero_mul, Nat.zero_mul] at least
        rw [least, zero]
        split <;> rfl
      · have value : (a + b).natAbs = (a + b).natAbs * 2 ^ (1074 - 1074) := by
          rw [Nat.sub_self, Nat.pow_zero, Nat.mul_one]
        have rounded := nearest_units (decide (a + b < 0)) (Nat.le_refl 1074) value h
        rw [signed_natAbs, ← one_eq] at rounded
        exact rounded

theorem negate_units {x : Double} {a : Int} (hx : x.units = some a) :
    x.negate.units = some (-a) := by
  cases x with
  | nan => cases hx
  | infinite _ => cases hx
  | finite negative scale fraction =>
    obtain rfl := Option.some.inj hx
    cases negative
    · rfl
    · exact congrArg some (Int.neg_neg _).symm

/-- A difference is not rounded if its value is exact. -/
theorem sub_units {x y : Double} {a b : Int} (hx : x.units = some a) (hy : y.units = some b)
    (h : IsExact (a - b).natAbs) : (sub x y).units = some (a - b) :=
  add_units hx (negate_units hy) h

/-! ## The range of the doubles -/

theorem isFinite_ofRank {negative : Bool} {rank : Nat} :
    (ofRank negative rank).isFinite = true ↔ rank < 2047 * fractions := by
  unfold ofRank fractions
  rw [← Nat.div_lt_iff_lt_mul (by decide)]
  split
  · next inside => exact iff_of_true rfl inside
  · next outside => exact iff_of_false Bool.false_ne_true outside

/-- Below an even whole number, rounding ends there just from the half before it. -/
theorem roundHalfEven_lt_iff {n d : Nat} (positive : 0 < d) (k : Nat) :
    roundHalfEven n d < 2 * k + 2 ↔ 2 * n < (4 * k + 3) * d := by
  have parts : d * (n / d) + n % d = n := Nat.div_add_mod n d
  have rest : n % d < d := Nat.mod_lt n positive
  unfold roundHalfEven
  dsimp only
  generalize n / d = whole at parts
  generalize n % d = r at parts rest
  rcases Nat.lt_trichotomy whole (2 * k + 1) with below | rfl | above
  · have scaled : d * whole ≤ d * (2 * k) := Nat.mul_le_mul_left d (Nat.le_of_lt_succ below)
    refine iff_of_true ?_ ?_
    · split <;> omega
    · nlinarith
  · have expanded : n = 2 * (d * k) + d + r := by rw [← parts]; ring
    have bound : (4 * k + 3) * d = 4 * (d * k) + 3 * d := by ring
    rw [expanded, bound]
    split <;> omega
  · have scaled : d * (2 * k + 2) ≤ d * whole := Nat.mul_le_mul_left d above
    refine iff_of_false ?_ ?_
    · split <;> omega
    · nlinarith

theorem roundHalfEven_le {n d q : Nat} (h : n < q * d) : roundHalfEven n d ≤ q := by
  have whole : n / d < q := Nat.div_lt_of_lt_mul (Nat.mul_comm q d ▸ h)
  unfold roundHalfEven
  dsimp only
  split <;> omega

theorem le_roundHalfEven {n d q : Nat} (positive : 0 < d) (h : q * d ≤ n) :
    q ≤ roundHalfEven n d := by
  have whole : q ≤ n / d := (Nat.le_div_iff_mul_le positive).mpr h
  unfold roundHalfEven
  dsimp only
  split <;> omega

/-- A value, counted in units of `2 ^ -1074`, is rounded to a finite double just if it is below
the middle between the largest of them and the power of two after it. -/
theorem nearestRank_lt_iff {num t m : Nat} (positive : num ≠ 0) (ht : t ≤ 1074)
    (value : m = num * 2 ^ (1074 - t)) :
    nearestRank num (2 ^ t) < 2047 * fractions ↔ m < 18014398509481983 * 2 ^ 2044 := by
  have cross := inUnits_cross num ht (grain m)
  have room : 0 < (inUnits num (2 ^ t) ((grain m : Int) - 1074)).2 :=
    Nat.mul_pos (Nat.two_pow_pos _) (Nat.two_pow_pos _)
  rw [← value] at cross
  have nonzero : m ≠ 0 := value ▸ Nat.mul_ne_zero positive (Nat.two_pow_pos _).ne'
  obtain ⟨below, full⟩ := grain_bounds nonzero
  rw [nearestRank_rounded positive ht value]
  generalize (inUnits num (2 ^ t) ((grain m : Int) - 1074)).1 = n at cross
  generalize (inUnits num (2 ^ t) ((grain m : Int) - 1074)).2 = d at cross room
  have unit : 0 < 2 ^ grain m := Nat.two_pow_pos _
  -- Both sides are compared in the unit of the last bit that is kept.
  have scaled (q : Nat) : q * d * 2 ^ grain m = q * 2 ^ grain m * d := Nat.mul_right_comm ..
  have above : n < 9007199254740992 * d := by
    refine Nat.lt_of_mul_lt_mul_right (a := 2 ^ grain m) ?_
    rw [cross, scaled]
    exact Nat.mul_lt_mul_of_pos_right below room
  rcases Nat.lt_trichotomy (grain m) 2045 with small | middle | large
  · have rounded := roundHalfEven_le above
    have power (e : Nat) (h : grain m ≤ e) : 2 ^ grain m ≤ 2 ^ e :=
      Nat.pow_le_pow_right (by decide) h
    have power := power 2044 (Nat.le_of_lt_succ small)
    refine iff_of_true ?_ ?_
    · unfold fractions
      omega
    · omega
  · have power (e : Nat) (h : grain m = e + 1) : 2 ^ grain m = 2 * 2 ^ e := by
      rw [h, Nat.pow_succ, Nat.mul_comm]
    have power := power 2044 middle
    have step : grain m * fractions + roundHalfEven n d < 2047 * fractions ↔
        roundHalfEven n d < 2 * 4503599627370495 + 2 := by
      unfold fractions
      omega
    rw [step, roundHalfEven_lt_iff room, ← Nat.mul_lt_mul_right unit, Nat.mul_assoc, cross,
      scaled, ← Nat.mul_assoc, Nat.mul_lt_mul_right room, power]
    omega
  · have power (e : Nat) (h : e + 2 ≤ grain m) : 4 * 2 ^ e ≤ 2 ^ grain m := by
      rw [Nat.mul_comm, show 4 = 2 ^ 2 from rfl, ← Nat.pow_add]
      exact Nat.pow_le_pow_right Nat.two_pos h
    have power := power 2044 large
    have kept : 4503599627370496 * 2 ^ grain m ≤ m := full.resolve_left (by omega)
    have rounded : 4503599627370496 ≤ roundHalfEven n d := by
      refine le_roundHalfEven room (Nat.le_of_mul_le_mul_right ?_ unit)
      rw [cross, scaled]
      exact Nat.mul_le_mul_right d kept
    refine iff_of_false ?_ ?_
    · unfold fractions
      omega
    · omega

/-- The integers with a finite double are those below the middle between the largest double and the
power of two after it. -/
theorem isFinite_ofInt {n : Int} : (ofInt n).isFinite = true ↔ n.natAbs < 2 ^ 1024 - 2 ^ 970 := by
  have range : (2 ^ 1024 - 2 ^ 970) * 2 ^ 1074 = 18014398509481983 * 2 ^ 2044 := by decide +kernel
  unfold ofInt nearest
  rw [isFinite_ofRank]
  by_cases zero : n.natAbs = 0
  · rw [zero]
    exact iff_of_true (by decide) (by decide +kernel)
  · have value : n.natAbs * 2 ^ 1074 = n.natAbs * 2 ^ (1074 - 0) := by rw [Nat.sub_zero]
    have bound := nearestRank_lt_iff zero (Nat.zero_le 1074) value
    have scaled (a b e : Nat) : a * 2 ^ e < b * 2 ^ e ↔ a < b :=
      Nat.mul_lt_mul_right (Nat.two_pow_pos e)
    rw [Nat.pow_zero] at bound
    rw [bound, ← range, scaled]

end SchemaDrift.Double
