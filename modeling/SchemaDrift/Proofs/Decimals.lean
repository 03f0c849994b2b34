import Mathlib
import SchemaDrift.Double.Text
import SchemaDrift.Proofs.Rounding

/-!
# Decimals and their doubles

A decimal is rounded to the double nearest to it. The quotient that is rounded may be written with
any two numbers, so a decimal may have zeros at its end; and the decimal that a double is written
with is rounded to this double.

* `Double.Keeps` says of a quotient, and not of the two numbers, which bit of it is the last kept.
* `Double.nearestRank_congr`: equal quotients have the same nearest double.
* `Double.ofDecimal_scaled`: zeros at the end of a decimal change nothing but its exponent.
* `Double.nearest_magnitude`: a double is the one nearest to its own value.
* `Double.shortest_reads`: the shortest decimal of a double has it as its nearest double. The search
  for a short one may fail, and then the exact decimal has it.
-/

namespace SchemaDrift.Double

section

variable {num den num' den' : Nat}

/-- A quotient in units of `2 ^ e`. -/
theorem inUnits_quotient (num den : Nat) (e : Int) :
    ((inUnits num den e).1 : ℚ) / (inUnits num den e).2 = num / den / 2 ^ e := by
  have power (n : Nat) : ((Nat.pow 2 n : Nat) : ℚ) = 2 ^ n := Nat.cast_pow 2 n
  have balance : ((2 : ℚ) ^ (-e).toNat) / 2 ^ e.toNat = (2 ^ e)⁻¹ := by
    rw [← zpow_natCast, ← zpow_natCast, ← zpow_sub₀ two_ne_zero, ← zpow_neg]
    congr 1
    omega
  rw [inUnits]
  dsimp only
  rw [Nat.cast_mul, Nat.cast_mul, power, power, mul_div_mul_comm, balance, div_eq_mul_inv _ (2 ^ e)]

theorem inUnits_pos (num : Nat) (hd : 0 < den) (e : Int) : 0 < (inUnits num den e).2 :=
  Nat.mul_pos hd (Nat.pow_pos (by decide))

/-- The last bit of weight `2 ^ e` leaves 53 bits, or fewer if it is the least one. -/
structure Keeps (q : ℚ) (e : Int) : Prop where
  least : -1074 ≤ e
  few : q < 2 ^ (e + 53)
  full : e = -1074 ∨ 2 ^ (e + 52) ≤ q

theorem Keeps.unique {q : ℚ} {e e' : Int} (h : Keeps q e) (h' : Keeps q e') : e = e' := by
  have below {e e' : Int} (h : Keeps q e) (h' : Keeps q e') : e' ≤ e := by
    by_contra larger
    rcases h'.full with least | full
    · have := h.least
      omega
    · have room : (2 : ℚ) ^ (e' + 52) < 2 ^ (e + 53) := full.trans_lt h.few
      have := (zpow_lt_zpow_iff_right₀ one_lt_two).mp room
      omega
  exact le_antisymm (below h' h) (below h h')

/-- The quotient is less than `k` units if and only if its whole part is. -/
theorem div_inUnits_lt (num : Nat) (hd : 0 < den) (e : Int) (k : Nat) :
    (inUnits num den e).1 / (inUnits num den e).2 < k ↔ (num : ℚ) / den < k * 2 ^ e := by
  have room := inUnits_pos num hd e
  have unit : (0 : ℚ) < 2 ^ e := zpow_pos two_pos e
  rw [Nat.div_lt_iff_lt_mul room, ← div_lt_iff₀ unit, ← inUnits_quotient,
    div_lt_iff₀ (Nat.cast_pos.mpr room)]
  norm_cast

theorem quotient_bounds (hn : 0 < num) (hd : 0 < den) :
    (2 : ℚ) ^ ((num.log2 : Int) - den.log2 - 1) ≤ num / den ∧
      (num : ℚ) / den < 2 ^ ((num.log2 : Int) - den.log2 + 1) := by
  have room : (0 : ℚ) < den := Nat.cast_pos.mpr hd
  have power (e k : Int) : (2 : ℚ) ^ (e - k) * 2 ^ k = 2 ^ e := by
    rw [← zpow_add₀ two_ne_zero, sub_add_cancel]
  have numerator : (2 : ℚ) ^ (num.log2 : Int) ≤ num ∧ (num : ℚ) < 2 ^ ((num.log2 : Int) + 1) :=
    ⟨mod_cast Nat.log2_self_le hn.ne', mod_cast Nat.lt_log2_self⟩
  have denominator : (2 : ℚ) ^ (den.log2 : Int) ≤ den ∧ (den : ℚ) ≤ 2 ^ ((den.log2 : Int) + 1) :=
    ⟨mod_cast Nat.log2_self_le hd.ne', mod_cast Nat.lt_log2_self.le⟩
  rw [le_div_iff₀ room, div_lt_iff₀ room]
  constructor
  · calc (2 : ℚ) ^ ((num.log2 : Int) - den.log2 - 1) * den
      _ ≤ 2 ^ ((num.log2 : Int) - den.log2 - 1) * 2 ^ ((den.log2 : Int) + 1) :=
        mul_le_mul_of_nonneg_left denominator.2 (zpow_pos two_pos _).le
      _ = 2 ^ (num.log2 : Int) := by rw [sub_sub, power]
      _ ≤ num := numerator.1
  · calc (num : ℚ)
      _ < 2 ^ ((num.log2 : Int) + 1) := numerator.2
      _ = 2 ^ ((num.log2 : Int) - den.log2 + 1) * 2 ^ (den.log2 : Int) := by
        rw [sub_add_eq_add_sub, power]
      _ ≤ 2 ^ ((num.log2 : Int) - den.log2 + 1) * den :=
        mul_le_mul_of_nonneg_left denominator.1 (zpow_pos two_pos _).le

/-- The exponent of the last bit is found from the lengths of the two numbers, but it is that of the
quotient. -/
theorem lastBit_keeps (hn : 0 < num) (hd : 0 < den) :
    Keeps ((num : ℚ) / den) (lastBit num den) := by
  obtain ⟨below, above⟩ := quotient_bounds hn hd
  have grow {e e' : Int} (h : e ≤ e') : (2 : ℚ) ^ e ≤ 2 ^ e' := zpow_le_zpow_right₀ one_le_two h
  unfold lastBit
  set low := max (-1074) ((num.log2 : Int) - den.log2 - 53) with least
  have bits : ((9007199254740992 : Nat) : ℚ) * 2 ^ low = 2 ^ (low + 53) := by
    rw [add_comm, zpow_add₀ two_ne_zero]
    norm_num
  have small := div_inUnits_lt num hd low 9007199254740992
  rw [bits] at small
  dsimp only
  split
  · next fits =>
    refine ⟨le_max_left _ _, small.mp fits, ?_⟩
    by_cases lowest : low = -1074
    · exact .inl lowest
    · exact .inr ((grow (by omega)).trans below)
  · next exceeds =>
    refine ⟨by omega, above.trans_le (grow (by omega)), .inr ?_⟩
    rw [add_assoc]
    exact not_lt.mp (mt small.mpr exceeds)

theorem lastBit_congr (hn : 0 < num) (hd : 0 < den) (hn' : 0 < num') (hd' : 0 < den')
    (h : (num : ℚ) / den = num' / den') : lastBit num den = lastBit num' den' := by
  have kept := lastBit_keeps hn hd
  rw [h] at kept
  exact kept.unique (lastBit_keeps hn' hd')

/-- Rounding to a whole number looks at the quotient only. -/
theorem roundHalfEven_congr (hd : 0 < den) (hd' : 0 < den') (h : num * den' = num' * den) :
    roundHalfEven num den = roundHalfEven num' den' := by
  have whole : num / den = num' / den' := by
    rw [← Nat.mul_div_mul_right num den hd', h, mul_comm den den', Nat.mul_div_mul_right _ _ hd]
  have rest : num % den * den' = num' % den' * den := by
    have left := Nat.div_add_mod num den
    have right := Nat.div_add_mod num' den'
    rw [whole] at left
    nlinarith
  have above : den < 2 * (num % den) ↔ den' < 2 * (num' % den') := by
    rw [← Nat.mul_lt_mul_right hd', mul_assoc, rest, ← mul_assoc, mul_comm den den',
      Nat.mul_lt_mul_right hd]
  have even : 2 * (num % den) = den ↔ 2 * (num' % den') = den' := by
    rw [← Nat.mul_left_inj hd'.ne', mul_assoc, rest, ← mul_assoc, mul_comm den den',
      Nat.mul_left_inj hd.ne']
  simp only [roundHalfEven, whole, above, even]

theorem nearestRank_congr (hd : 0 < den) (hd' : 0 < den') (h : num * den' = num' * den) :
    nearestRank num den = nearestRank num' den' := by
  have zero : num = 0 ↔ num' = 0 := by
    rw [← Nat.mul_left_inj hd'.ne', h, zero_mul, Nat.mul_eq_zero, or_iff_left hd.ne']
  unfold nearestRank
  by_cases nothing : num = 0
  · rw [if_pos nothing, if_pos (zero.mp nothing)]
  · have some_num := Nat.pos_of_ne_zero nothing
    have some_num' := Nat.pos_of_ne_zero (mt zero.mpr nothing)
    have room : ((den : ℚ) ≠ 0) ∧ (den' : ℚ) ≠ 0 := ⟨mod_cast hd.ne', mod_cast hd'.ne'⟩
    have quotient : (num : ℚ) / den = num' / den' := by
      rw [div_eq_div_iff room.1 room.2]
      exact_mod_cast h
    rw [if_neg nothing, if_neg (mt zero.mpr nothing),
      lastBit_congr some_num hd some_num' hd' quotient]
    dsimp only
    rw [roundHalfEven_congr (inUnits_pos num hd _) (inUnits_pos num' hd' _) ?_]
    rw [inUnits, inUnits]
    dsimp only
    rw [mul_mul_mul_comm, h, mul_mul_mul_comm]

end

/-! ## Decimals -/

theorem toDigits_scaled {n : Nat} (h : 0 < n) (k : Nat) :
    Nat.toDigits 10 (n * 10 ^ k) = Nat.toDigits 10 n ++ List.replicate k '0' := by
  induction k with
  | zero => simp
  | succ k ih =>
    have more : n * 10 ^ (k + 1) = 10 * (n * 10 ^ k) + 0 := by ring
    have room : 0 < n * 10 ^ k := Nat.mul_pos h (Nat.pow_pos (by decide))
    have last : Nat.toDigits 10 0 = ['0'] := rfl
    rw [more, ← Nat.toDigits_append_toDigits (by decide) room (by decide), ih, last,
      List.append_assoc, ← List.replicate_succ']

/-- Zeros behind the digits of a decimal change nothing if the exponent makes up for them. -/
theorem ofDecimal_scaled (negative : Bool) (digits : Nat) (k : Nat) (e : Int) :
    ofDecimal negative (digits * 10 ^ k) (e - k) = ofDecimal negative digits e := by
  rcases Nat.eq_zero_or_pos digits with rfl | positive
  · rw [Nat.zero_mul]
    rfl
  · have power (n : Nat) : 0 < Nat.pow 10 n := Nat.pow_pos (by decide)
    have scaled : digits * 10 ^ k ≠ 0 := (Nat.mul_pos positive (power k)).ne'
    have size : (digitCount (digits * 10 ^ k) : Int) + (e - k) = digitCount digits + e := by
      rw [digitCount, digitCount, toDigits_scaled positive, List.length_append,
        List.length_replicate]
      push_cast
      ring
    have rank : nearestRank (digits * 10 ^ k * Nat.pow 10 (e - k).toNat)
        (Nat.pow 10 (-(e - k)).toNat) =
          nearestRank (digits * Nat.pow 10 e.toNat) (Nat.pow 10 (-e).toNat) := by
      refine nearestRank_congr (power _) (power _) ?_
      have exponents : k + ((e - k).toNat + (-e).toNat) = e.toNat + (-(e - k)).toNat := by omega
      show digits * 10 ^ k * 10 ^ (e - k).toNat * 10 ^ (-e).toNat =
        digits * 10 ^ e.toNat * 10 ^ (-(e - k)).toNat
      rw [mul_assoc, mul_assoc, ← pow_add, ← pow_add, mul_assoc, ← pow_add, exponents]
    unfold ofDecimal
    rw [if_neg scaled, if_neg positive.ne']
    dsimp only
    rw [size, nearest, nearest, rank]

/-! ## The shortest decimal -/

/-- The sign has no part in rounding. -/
theorem ofRank_sign {rank : Nat} {scale : Fin 2047} {fraction : Fin 4503599627370496}
    (h : ofRank false rank = .finite false scale fraction) (negative : Bool) :
    ofRank negative rank = .finite negative scale fraction := by
  unfold ofRank at h ⊢
  split at h
  · next inside =>
    rw [dif_pos inside]
    cases h
    rfl
  · cases h

theorem ofDecimal_sign {digits : Nat} {e : Int} {scale : Fin 2047}
    {fraction : Fin 4503599627370496}
    (h : ofDecimal false digits e = .finite false scale fraction) (negative : Bool) :
    ofDecimal negative digits e = .finite negative scale fraction := by
  unfold ofDecimal at h ⊢
  split
  · next nothing =>
    rw [if_pos nothing] at h
    exact ofRank_sign h negative
  · next some_digit =>
    rw [if_neg some_digit] at h
    dsimp only at h ⊢
    split
    · next huge =>
      rw [if_pos huge] at h
      cases h
    · next inside =>
      rw [if_neg inside] at h
      split
      · next tiny =>
        rw [if_pos tiny] at h
        exact ofRank_sign h negative
      · next large =>
        rw [if_neg large] at h
        exact ofRank_sign h negative

theorem shortestFrom_reads {x : Double} {num den left count : Nat} {c : Decimal}
    (h : shortestFrom x num den left count = some c) : ofDecimal false c.digits c.exponent = x := by
  induction left generalizing count with
  | zero => cases h
  | succ left ih =>
    unfold shortestFrom at h
    split at h
    · next found =>
      cases h
      simpa using List.find?_some found
    · exact ih h

variable {scale : Fin 2047} {fraction : Fin 4503599627370496}

theorem grain_unique {m g : Nat} (positive : m ≠ 0) (few : m < 9007199254740992 * 2 ^ g)
    (full : g = 0 ∨ 4503599627370496 * 2 ^ g ≤ m) : grain m = g := by
  have below {g g' : Nat} (few : m < 9007199254740992 * 2 ^ g)
      (full : g' = 0 ∨ 4503599627370496 * 2 ^ g' ≤ m) : g' ≤ g := by
    by_contra larger
    obtain ⟨d, hd⟩ := Nat.exists_eq_add_of_lt (not_le.mp larger)
    have twice : 2 ^ g' = 2 * (2 ^ g * 2 ^ d) := by
      rw [hd, pow_succ, pow_add]
      ring
    have grows : 2 ^ g ≤ 2 ^ g * 2 ^ d := Nat.le_mul_of_pos_right _ (Nat.two_pow_pos d)
    omega
  obtain ⟨few', full'⟩ := grain_bounds positive
  exact le_antisymm (below few full') (below few' full)

theorem significand_bounds (scale : Fin 2047) (fraction : Fin 4503599627370496) :
    significand scale fraction < 9007199254740992 ∧
      (scale.val - 1 = 0 ∨ 4503599627370496 ≤ significand scale fraction) := by
  have inside := fraction.isLt
  unfold significand fractions
  split
  · next least => exact ⟨by omega, .inl (by omega)⟩
  · exact ⟨by omega, .inr (by omega)⟩

/-- The fields of a double are its rank. -/
theorem ofRank_fields : ofRank false ((scale.val - 1) * fractions + significand scale fraction) =
    .finite false scale fraction := by
  have inside := fraction.isLt
  have range := scale.isLt
  have rank : (scale.val - 1) * fractions + significand scale fraction =
      scale.val * 4503599627370496 + fraction.val := by
    unfold significand fractions
    split
    · next least => rw [least]
    · next normal => omega
  have fields : (scale.val * 4503599627370496 + fraction.val) / 4503599627370496 = scale.val ∧
      (scale.val * 4503599627370496 + fraction.val) % 4503599627370496 = fraction.val := by
    omega
  unfold ofRank
  rw [rank, dif_pos (by omega)]
  simp only [fields]

/-- A double is the one nearest to its own value. -/
theorem nearest_magnitude (positive : magnitude scale fraction ≠ 0) :
    nearest false (magnitude scale fraction) (2 ^ 1074) = .finite false scale fraction := by
  obtain ⟨few, full⟩ := significand_bounds scale fraction
  have value : magnitude scale fraction = significand scale fraction * 2 ^ (scale.val - 1) := rfl
  have unit := Nat.two_pow_pos (scale.val - 1)
  have last : grain (magnitude scale fraction) = scale.val - 1 := by
    refine grain_unique positive ?_ (full.imp_right fun h => ?_)
    · exact Nat.mul_lt_mul_of_pos_right few unit
    · exact Nat.mul_le_mul_right _ h
  have rank := nearestRank_eq positive (le_refl 1074) (by rw [Nat.sub_self, pow_zero, mul_one])
    (by rw [last]; exact Dvd.intro_left _ rfl)
  rw [nearest, rank, last, value, Nat.mul_div_cancel _ unit]
  exact ofRank_fields

theorem magnitude_lt {e : Nat} (h : 53 + (scale.val - 1) ≤ e) :
    magnitude scale fraction < 2 ^ e := by
  have few := (significand_bounds scale fraction).1
  calc significand scale fraction * 2 ^ (scale.val - 1)
    _ < 2 ^ 53 * 2 ^ (scale.val - 1) := Nat.mul_lt_mul_of_pos_right few (Nat.two_pow_pos _)
    _ = 2 ^ (53 + (scale.val - 1)) := (pow_add 2 53 _).symm
    _ ≤ 2 ^ e := Nat.pow_le_pow_right Nat.two_pos h

theorem lt_digitCount {n k : Nat} (hk : 0 < k) (h : 10 ^ k ≤ n) : k < digitCount n := by
  unfold digitCount
  rw [← not_le, Nat.length_toDigits_le_iff (by decide) hk, not_lt]
  exact h

theorem digitCount_le {n k : Nat} (hk : 0 < k) (h : n < 10 ^ k) : digitCount n ≤ k :=
  (Nat.length_toDigits_le_iff (by decide) hk).mpr h

theorem pow_eq (b n : Nat) : Nat.pow b n = b ^ n := rfl

/-- What is exactly a magnitude is read as the double. The numbers of digits are in the range of
those that are not decided at once. -/
theorem exact_reads (positive : magnitude scale fraction ≠ 0) {e : Nat} (small : e = 1074) :
    ofDecimal false (magnitude scale fraction * 5 ^ e) (-e) = .finite false scale fraction := by
  have room : 0 < 5 ^ e := Nat.pow_pos (by decide)
  have digits : magnitude scale fraction * 5 ^ e ≠ 0 := Nat.mul_ne_zero positive room.ne'
  have low : 10 ^ 743 ≤ 5 ^ e := by
    rw [small]
    decide +kernel
  have high : 2 ^ 2098 * 5 ^ e ≤ 10 ^ 1384 := by
    rw [small]
    decide +kernel
  have inside : magnitude scale fraction < 2 ^ 2098 := magnitude_lt (by omega)
  have many : 743 < digitCount (magnitude scale fraction * 5 ^ e) :=
    lt_digitCount (by decide) (low.trans (Nat.le_mul_of_pos_left _ (Nat.pos_of_ne_zero positive)))
  have few : digitCount (magnitude scale fraction * 5 ^ e) ≤ 1384 :=
    digitCount_le (by decide) ((Nat.mul_lt_mul_of_pos_right inside room).trans_le high)
  have rank : nearestRank (magnitude scale fraction * 5 ^ e * Nat.pow 10 (-(e : Int)).toNat)
      (Nat.pow 10 (-(-(e : Int))).toNat) = nearestRank (magnitude scale fraction) (2 ^ e) := by
    have exponents : (-(e : Int)).toNat = 0 ∧ (-(-(e : Int))).toNat = e := by omega
    refine nearestRank_congr (Nat.pow_pos (by decide)) (Nat.two_pow_pos _) ?_
    rw [exponents.1, exponents.2, pow_eq, pow_eq, pow_zero, mul_one, mul_assoc, ← mul_pow]
    rfl
  unfold ofDecimal
  rw [if_neg digits]
  dsimp only
  rw [if_neg (by omega), if_neg (by omega), nearest, rank, small]
  exact nearest_magnitude positive

theorem exactDecimal_reads (positive : magnitude scale fraction ≠ 0) :
    ofDecimal false (exactDecimal scale fraction).digits (exactDecimal scale fraction).exponent =
      .finite false scale fraction := by
  unfold exactDecimal
  dsimp only
  -- The power of five must not be evaluated.
  generalize small : 1074 = e
  have exponent : (-1074 : Int) = -(e : Int) := by
    rw [← small]
    rfl
  rw [exponent]
  exact exact_reads positive small.symm

theorem shortest_reads (positive : magnitude scale fraction ≠ 0) :
    ofDecimal false (shortest scale fraction).digits (shortest scale fraction).exponent =
      .finite false scale fraction := by
  unfold shortest
  rcases found : shortestFrom (.finite false scale fraction) (magnitude scale fraction) one 17 1
    with _ | c
  · exact exactDecimal_reads positive
  · exact shortestFrom_reads found

theorem eq_zero_of_magnitude (h : magnitude scale fraction = 0) : scale = 0 ∧ fraction = 0 := by
  have nothing : significand scale fraction = 0 :=
    (Nat.mul_eq_zero.mp h).resolve_right (Nat.two_pow_pos _).ne'
  unfold significand fractions at nothing
  split at nothing
  · next least => exact ⟨Fin.ext least, Fin.ext nothing⟩
  · omega

/-- Only zero is written without a digit other than zero. -/
theorem shortest_pos (positive : magnitude scale fraction ≠ 0) :
    0 < (shortest scale fraction).digits := by
  refine Nat.pos_of_ne_zero fun nothing => positive ?_
  have reads := shortest_reads positive
  rw [nothing] at reads
  have zero : Double.finite false 0 0 = .finite false scale fraction := reads
  cases zero
  rfl

end SchemaDrift.Double
