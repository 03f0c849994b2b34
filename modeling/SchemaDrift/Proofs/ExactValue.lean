import Mathlib
import SchemaDrift.Proofs.Rounding
import SchemaDrift.Proofs.Number

/-!
# Exact values of numbers

A finite number has a rational value: an integer its own, and a double the one that binary64 gives
its three fields. Comparison looks at these values and at nothing else.

* `Double.value` and `Number.rational?` are the values of finite doubles and numbers.
* `Number.extended?` takes in the two infinities, as the ends of the number line.
* `Number.related_rational`: finite numbers are related as their values are.
* `Number.same_iff_extended`: two numbers are the same if they have one value.
* `Number.rounded` is the double near a number, as a number. `Number.same_rounded`: numbers of one
  value are rounded to one value; `Number.same_rounded_self_iff`: it is their own if a double has it.
-/

namespace SchemaDrift

/-! ## Values -/

/-- The value of the double with these fields. The fraction counts in parts of `2 ^ 52`, and only
the doubles of the least exponent have no leading one in front of it. -/
def Double.value (negative : Bool) (scale : Fin 2047) (fraction : Fin 4503599627370496) : ℚ :=
  let part : ℚ := fraction.val / 2 ^ 52
  let size : ℚ :=
    if scale.val = 0 then part * 2 ^ (-1022 : ℤ) else (1 + part) * 2 ^ ((scale.val : ℤ) - 1023)
  if negative then -size else size

def Relation.Relates : Relation → ℚ → ℚ → Prop
  | .below, a, b => a < b
  | .above, a, b => b < a
  | .atMost, a, b => a ≤ b
  | .atLeast, a, b => b ≤ a

namespace Number

def rational? : Number → Option ℚ
  | .int n => some n
  | .double (.finite negative scale fraction) => some (Double.value negative scale fraction)
  | .double _ => none

/-- The value of a number on the line of rationals with two ends; `nan` has none. -/
def extended? : Number → Option (WithBot (WithTop ℚ))
  | .double (.infinite negative) => some (if negative then ⊥ else ⊤)
  | a => a.rational?.map fun q => ((q : WithTop ℚ) : WithBot (WithTop ℚ))

/-- A finite number has a value. -/
theorem rational_of_finite {a : Number} (h : a.isFinite = true) : ∃ q, a.rational? = some q := by
  cases a with
  | int n => exact ⟨_, rfl⟩
  | double x =>
    cases x with
    | finite negative scale fraction => exact ⟨_, rfl⟩
    | nan => exact nomatch h
    | infinite negative => exact nomatch h

end Number

/-! ## Values and places -/

namespace Double

theorem twoPower_eq (n : ℕ) : ((Nat.pow 2 n : ℕ) : ℚ) = 2 ^ n := Nat.cast_pow 2 n

theorem cast_one : (one : ℚ) = 2 ^ (1074 : ℤ) := by
  rw [one_eq, Nat.cast_pow, Nat.cast_ofNat, zpow_ofNat]

/-- A value is worth `2 ^ 1074` times as many units. -/
theorem magnitude_eq (scale : Fin 2047) (fraction : Fin 4503599627370496) :
    (magnitude scale fraction : ℚ) = value false scale fraction * one := by
  rw [magnitude, Nat.cast_mul, twoPower_eq, cast_one, value, if_neg Bool.false_ne_true, significand]
  split
  · next least =>
    have shift : (2 : ℚ) ^ (-1022 : ℤ) * 2 ^ (1074 : ℤ) = 2 ^ 52 := by
      rw [← zpow_add₀ two_ne_zero]
      norm_num
    rw [mul_assoc, shift, least]
    simp
  · next least =>
    have shift : (2 : ℚ) ^ ((scale.val : ℤ) - 1023) * 2 ^ (1074 : ℤ) =
        2 ^ 52 * 2 ^ (scale.val - 1) := by
      rw [← zpow_add₀ two_ne_zero, ← pow_add, ← zpow_natCast]
      congr 1
      omega
    have leading : ((fractions + fraction.val : ℕ) : ℚ) = (1 + fraction.val / 2 ^ 52) * 2 ^ 52 := by
      rw [fractions]
      push_cast
      ring
    rw [mul_assoc, shift, leading, mul_assoc]

/-- The place of a finite double is its value in units. -/
theorem units_eq (negative : Bool) (scale : Fin 2047) (fraction : Fin 4503599627370496) :
    ∃ u : ℤ, (finite negative scale fraction).units = some u ∧
      value negative scale fraction * one = u := by
  refine ⟨_, rfl, ?_⟩
  have whole := magnitude_eq scale fraction
  cases negative with
  | false =>
    rw [if_neg Bool.false_ne_true, Int.cast_natCast, whole]
  | true =>
    have sign : value true scale fraction = -value false scale fraction := rfl
    rw [if_pos rfl, Int.cast_neg, Int.cast_natCast, whole, sign, neg_mul]

end Double

namespace Number

theorem one_pos : (0 : ℚ) < Double.one := Nat.cast_pos.mpr Double.one_pos

/-- A number with a value stands at the point that is its value in units. -/
theorem place_of_rational {a : Number} {v : ℚ} (h : a.rational? = some v) :
    ∃ u : ℤ, a.place = some (.point u) ∧ v * Double.one = u := by
  cases a with
  | int n =>
    obtain rfl : (n : ℚ) = v := Option.some.inj h
    exact ⟨_, rfl, by push_cast; rfl⟩
  | double x =>
    cases x with
    | finite negative scale fraction =>
      obtain rfl : Double.value negative scale fraction = v := Option.some.inj h
      obtain ⟨u, units, worth⟩ := Double.units_eq negative scale fraction
      refine ⟨u, ?_, worth⟩
      rw [place, units]
      · rfl
      · exact Double.noConfusion
      · exact fun _ => Double.noConfusion
    | nan => cases h
    | infinite negative => cases h

/-- Where a place is on the line of rationals with two ends. -/
def Place.extended : Place → WithBot (WithTop ℚ)
  | .below => ⊥
  | .point u => (((u : ℚ) / Double.one : ℚ) : WithTop ℚ)
  | .above => (⊤ : WithTop ℚ)

theorem Place.extended_injective : Function.Injective Place.extended := by
  intro p q h
  cases p <;> cases q
  case below.below => rfl
  case above.above => rfl
  case point.point m n =>
    have same := (div_left_inj' one_pos.ne').mp (WithTop.coe_injective (WithBot.coe_injective h))
    rw [Int.cast_injective same]
  case below.point => exact absurd h (WithBot.bot_ne_coe)
  case below.above => exact absurd h (WithBot.bot_ne_coe)
  case point.below => exact absurd h (WithBot.coe_ne_bot)
  case above.below => exact absurd h (WithBot.coe_ne_bot)
  case point.above => exact absurd (WithBot.coe_injective h) (WithTop.coe_ne_top)
  case above.point => exact absurd (WithBot.coe_injective h) (WithTop.top_ne_coe)

/-- The value of a number is where its place is. -/
theorem extended_eq (a : Number) : a.extended? = a.place.map Place.extended := by
  have finite {a : Number} {q : ℚ} (h : a.rational? = some q) :
      some ((q : WithTop ℚ) : WithBot (WithTop ℚ)) = a.place.map Place.extended := by
    obtain ⟨u, stands, worth⟩ := place_of_rational h
    rw [stands, Option.map_some, Place.extended, ← worth, mul_div_cancel_right₀ _ one_pos.ne']
  cases a with
  | int n => exact finite rfl
  | double x =>
    cases x with
    | nan => rfl
    | infinite negative => cases negative <;> rfl
    | finite negative scale fraction => exact finite rfl

/-- Two numbers are the same if they have one value. -/
theorem same_iff_extended {a b : Number} :
    a.same b = true ↔ ∃ v, a.extended? = some v ∧ b.extended? = some v := by
  simp only [same_iff, extended_eq, Option.map_eq_some_iff]
  constructor
  · rintro ⟨p, ha, hb⟩
    exact ⟨_, ⟨p, ha, rfl⟩, p, hb, rfl⟩
  · rintro ⟨v, ⟨p, ha, rfl⟩, q, hb, same⟩
    obtain rfl := Place.extended_injective same
    exact ⟨q, ha, hb⟩

/-- Finite numbers are related as their values are. -/
theorem related_rational {r : Relation} {a b : Number} {v w : ℚ} (ha : a.rational? = some v)
    (hb : b.rational? = some w) : a.related r b = true ↔ r.Relates v w := by
  obtain ⟨m, left, hm⟩ := place_of_rational ha
  obtain ⟨n, right, hn⟩ := place_of_rational hb
  have below : m < n ↔ v < w := by
    rw [← Int.cast_lt (R := ℚ), ← hm, ← hn, mul_lt_mul_iff_left₀ one_pos]
  have same : m = n ↔ v = w := by
    rw [← Int.cast_inj (α := ℚ), ← hm, ← hn, mul_left_inj' one_pos.ne']
  simp only [related, compare?, left, right, Place.order, below, same, Option.any_some]
  rcases lt_trichotomy v w with less | rfl | more
  · cases r <;> simp [Relation.holds, Relation.Relates, less, less.le, less.not_gt, less.not_ge]
  · cases r <;> simp [Relation.holds, Relation.Relates]
  · cases r <;>
      simp [Relation.holds, Relation.Relates, more, more.le, more.not_gt, more.not_ge, more.ne']

/-! ## Rounded numbers -/

/-- A number rounded to the nearest double. -/
def rounded (a : Number) : Number := .double a.toDouble

/-- An integer that is a double is not changed by rounding. -/
theorem place_rounded {n : ℤ} {x : Double} (h : (int n).place = (double x).place) :
    (int n).rounded.place = (int n).place := by
  have units : x.units = some (n * Double.one) := place_double_iff.mp h.symm
  exact place_double_iff.mpr (Double.ofInt_units_of_units units)

theorem same_rounded {a b : Number} (h : a.same b = true) : a.rounded.same b.rounded = true := by
  obtain ⟨p, ha, hb⟩ := same_iff.mp h
  cases a with
  | int m =>
    cases b with
    | int n =>
      obtain rfl := same_int.mp h
      refine same_self fun undefined => ?_
      have undefined : Double.ofInt m = .nan := double.inj undefined
      unfold Double.ofInt Double.nearest Double.ofRank at undefined
      split at undefined <;> exact nomatch undefined
    | double y =>
      exact same_iff.mpr ⟨p, (place_rounded (ha.trans hb.symm)).trans ha, hb⟩
  | double x =>
    cases b with
    | int n => exact same_iff.mpr ⟨p, ha, (place_rounded (hb.trans ha.symm)).trans hb⟩
    | double y => exact h

/-- Rounding keeps the value of a number just if a double has it. -/
theorem same_rounded_self_iff {a : Number} :
    a.same a.rounded = true ↔ ∃ x : Double, a.same (.double x) = true := by
  constructor
  · exact fun h => ⟨a.toDouble, h⟩
  · rintro ⟨x, h⟩
    have rounded : a.rounded.same (.double x) = true := same_rounded h
    rw [same_comm] at rounded
    exact same_trans h rounded

end Number

end SchemaDrift
