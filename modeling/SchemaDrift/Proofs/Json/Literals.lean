import SchemaDrift.Proofs.Decimals
import SchemaDrift.Proofs.Json.Numerals

/-!
# Numbers are read back

A double is written with the digits of its shortest decimal, in one of four layouts: all of them
before the point, all behind it, some on each side, or with an exponent. Whichever it is, the digits
read are those of the decimal with some zeros around them, and zeros do not change what is read.

* `Json.Digits` are digits that no needless zero leads.
* `Json.readNumber_below`, `Json.readNumber_above`, `Json.readNumber_between` and
  `Json.readNumber_scientific` are about the four layouts, `Json.readNumber_layout` about any.
* `Json.significantDigits_spec`: the digits of a decimal without the zeros at its end.
* `Json.readNumber_magnitude`: the magnitude of a double is read back.
* `Json.readsBack_iff`: all numbers are read back but the integers with too many digits.
-/

namespace SchemaDrift

namespace Json

/-! ## The value of digits -/

theorem digitsValue_eq (ds : List Char) : digitsValue ds = Nat.ofDigitChars 10 ds 0 := by
  unfold digitsValue Nat.ofDigitChars
  congr 1
  funext n d
  rw [Nat.mul_comm]
  rfl

theorem digitsValue_digits (n : Nat) : digitsValue (Nat.toDigits 10 n) = n := by
  rw [digitsValue_eq, Nat.ofDigitChars_ten_toDigits]

theorem digitsValue_append (ds es : List Char) :
    digitsValue (ds ++ es) = digitsValue ds * 10 ^ es.length + digitsValue es := by
  rw [digitsValue_eq, Nat.ofDigitChars_append, Nat.ofDigitChars_eq_ofDigitChars_zero,
    ← digitsValue_eq, ← digitsValue_eq, Nat.mul_comm]

theorem digitsValue_zeros (n : Nat) : digitsValue (List.replicate n '0') = 0 := by
  induction n with
  | zero => rfl
  | succ n ih => rw [List.replicate_succ', digitsValue_append, ih]; rfl

theorem digitsValue_lt {ds : List Char} (h : ∀ c ∈ ds, c.isDigit = true) :
    digitsValue ds < 10 ^ ds.length := by
  induction ds using List.reverseRecOn with
  | nil => exact Nat.one_pos
  | append_singleton ds d ih =>
    obtain ⟨before, last⟩ := List.forall_mem_append.mp h
    have small : digitsValue [d] < 10 := by
      have digit := last d List.mem_cons_self
      simp only [Char.isDigit, Bool.and_eq_true, decide_eq_true_eq] at digit
      have : d.toNat ≤ 57 := digit.2
      show 0 * 10 + (d.toNat - 48) < 10
      omega
    have := ih before
    rw [digitsValue_append, List.length_append, List.length_singleton, pow_succ]
    omega

/-- The first digit of a positive number is no zero. -/
theorem digits_lead_ne {n : Nat} (h : 0 < n) : (Nat.toDigits 10 n).head? ≠ some '0' := by
  intro lead
  obtain ⟨ds, digits⟩ := List.head?_eq_some_iff.mp lead
  have all : ∀ c ∈ ds, c.isDigit = true := fun c hc =>
    isDigit_of_mem_digits (digits ▸ List.mem_cons_of_mem '0' hc)
  have value : n = digitsValue ds := by
    have front : '0' :: ds = ['0'] ++ ds := rfl
    have zero : digitsValue ['0'] = 0 := rfl
    rw [← digitsValue_digits n, digits, front, digitsValue_append, zero, Nat.zero_mul,
      Nat.zero_add]
  have small : n < 10 ^ ds.length := value ▸ digitsValue_lt all
  rcases Nat.eq_zero_or_pos ds.length with none | some
  · rw [none] at small
    omega
  · have short := (Nat.length_toDigits_le_iff (by decide) some).mpr small
    rw [digits, List.length_cons] at short
    omega

/-! ## Reading the parts of a number -/

/-- Digits that are not led by a needless zero. -/
structure Digits (ds : List Char) : Prop where
  all : ∀ c ∈ ds, c.isDigit = true
  filled : ds ≠ []
  lead : ds.head? ≠ some '0'

theorem Digits.whole {ds rest : List Char} (h : Digits ds) (stops : StopsDigits rest) :
    wholeDigits (ds ++ rest) = some (ds, rest) := by
  obtain ⟨c, cs, rfl⟩ := List.exists_cons_of_ne_nil h.filled
  obtain ⟨digit, more⟩ := List.forall_mem_cons.mp h.all
  have nonzero : c ≠ '0' := fun same => h.lead (congrArg some same)
  have taken : cs.takeWhile Char.isDigit = cs := List.takeWhile_eq_self_iff.mpr more
  have dropped : cs.dropWhile Char.isDigit = [] := List.dropWhile_eq_nil_iff.mpr more
  rw [List.cons_append, wholeDigits, if_neg nonzero, if_pos digit, takeWhile_append_stops cs stops,
    dropWhile_append_stops cs stops, taken, dropped, List.nil_append]

theorem fractionDigits_point {ds rest : List Char} (all : ∀ c ∈ ds, c.isDigit = true)
    (filled : ds ≠ []) (stops : StopsDigits rest) :
    fractionDigits ('.' :: ds ++ rest) = (ds, rest) := by
  obtain ⟨c, cs, rfl⟩ := List.exists_cons_of_ne_nil filled
  obtain ⟨digit, more⟩ := List.forall_mem_cons.mp all
  have taken : cs.takeWhile Char.isDigit = cs := List.takeWhile_eq_self_iff.mpr more
  have dropped : cs.dropWhile Char.isDigit = [] := List.dropWhile_eq_nil_iff.mpr more
  simp only [List.cons_append, fractionDigits, if_pos digit, takeWhile_append_stops cs stops,
    dropWhile_append_stops cs stops, taken, dropped, List.nil_append]

theorem exponentDigits_digits (negative : Bool) {ds : List Char}
    (all : ∀ c ∈ ds, c.isDigit = true) (filled : ds ≠ []) :
    exponentDigits negative ds =
      some (if negative then -(digitsValue ds : Int) else digitsValue ds, []) := by
  obtain ⟨c, cs, rfl⟩ := List.exists_cons_of_ne_nil filled
  obtain ⟨digit, more⟩ := List.forall_mem_cons.mp all
  have taken : cs.takeWhile Char.isDigit = cs := List.takeWhile_eq_self_iff.mpr more
  have dropped : cs.dropWhile Char.isDigit = [] := List.dropWhile_eq_nil_iff.mpr more
  rw [exponentDigits, if_pos digit, taken, dropped]

/-- The digits of an exponent are padded to two. -/
theorem padded_digits (n : Nat) :
    let ds := Nat.toDigits 10 n
    let padded := if ds.length < 2 then '0' :: ds else ds
    (∀ c ∈ padded, c.isDigit = true) ∧ padded ≠ [] ∧ digitsValue padded = n := by
  have all : ∀ c ∈ Nat.toDigits 10 n, c.isDigit = true := fun c => isDigit_of_mem_digits
  dsimp only
  split
  · have front : '0' :: Nat.toDigits 10 n = ['0'] ++ Nat.toDigits 10 n := rfl
    have zero : digitsValue ['0'] = 0 := rfl
    refine ⟨List.forall_mem_cons.mpr ⟨by decide, all⟩, List.cons_ne_nil _ _, ?_⟩
    rw [front, digitsValue_append, zero, Nat.zero_mul, Nat.zero_add, digitsValue_digits]
  · exact ⟨all, Nat.toDigits_ne_nil, digitsValue_digits n⟩

/-- An exponent is read back. -/
theorem exponent?_text (e : Int) : exponent? ('e' :: Double.exponentText e) = some (e, []) := by
  obtain ⟨all, filled, value⟩ := padded_digits e.natAbs
  unfold Double.exponentText
  by_cases negative : e < 0
  · rw [if_pos negative]
    refine (exponentDigits_digits true all filled).trans ?_
    rw [value, if_pos rfl, Int.ofNat_natAbs_of_nonpos negative.le, Int.neg_neg]
  · rw [if_neg negative]
    refine (exponentDigits_digits false all filled).trans ?_
    rw [value, if_neg Bool.false_ne_true, Int.natAbs_of_nonneg (not_lt.mp negative)]

theorem readNumber_point (negative : Bool) {cs whole ds : List Char}
    (digits : wholeDigits cs = some (whole, '.' :: ds)) (all : ∀ c ∈ ds, c.isDigit = true)
    (filled : ds ≠ []) :
    readNumber negative cs = .ok (.num (.double
      (.ofDecimal negative (digitsValue (whole ++ ds)) (-ds.length))), []) := by
  have nothing : StopsDigits [] := fun _ h => nomatch h
  have fraction := fractionDigits_point all filled nothing
  rw [List.append_nil] at fraction
  obtain ⟨d, ds, rfl⟩ := List.exists_cons_of_ne_nil filled
  unfold readNumber
  simp only [digits, fraction]
  rfl

theorem readNumber_power (negative : Bool) {cs whole mid ds : List Char} {e : Int}
    (digits : wholeDigits cs = some (whole, mid))
    (fraction : fractionDigits mid = (ds, 'e' :: Double.exponentText e)) :
    readNumber negative cs = .ok (.num (.double
      (.ofDecimal negative (digitsValue (whole ++ ds)) (e - ds.length))), []) := by
  unfold readNumber
  simp only [digits, fraction, exponent?_text]

/-! ## Reading decimals -/

section

variable {ds : List Char}

theorem stops_point (rest : List Char) : StopsDigits ('.' :: rest) :=
  stopsDigits_of_lead (by decide) rest

theorem stops_letter (rest : List Char) : StopsDigits ('e' :: rest) :=
  stopsDigits_of_lead (by decide) rest

theorem isDigit_zeros (n : Nat) : ∀ c ∈ List.replicate n '0', c.isDigit = true := by
  intro c hc
  rw [List.eq_of_mem_replicate hc]
  decide

/-- Digits are read back where all of them stand behind the point, after some zeros. -/
theorem readNumber_below (h : Digits ds) (negative : Bool) (zeros : Nat) :
    readNumber negative ('0' :: '.' :: (List.replicate zeros '0' ++ ds)) =
      .ok (.num (.double (.ofDecimal negative (digitsValue ds) (-(zeros + ds.length)))), []) := by
  have all : ∀ c ∈ List.replicate zeros '0' ++ ds, c.isDigit = true :=
    List.forall_mem_append.mpr ⟨isDigit_zeros zeros, h.all⟩
  have filled : List.replicate zeros '0' ++ ds ≠ [] := List.append_ne_nil_of_right_ne_nil _ h.filled
  have zero : digitsValue ['0'] = 0 := rfl
  have value : digitsValue (['0'] ++ (List.replicate zeros '0' ++ ds)) = digitsValue ds := by
    rw [digitsValue_append, digitsValue_append, zero, digitsValue_zeros, Nat.zero_mul,
      Nat.zero_mul, Nat.zero_add, Nat.zero_add]
  have count : ((List.replicate zeros '0' ++ ds).length : Int) = zeros + ds.length := by
    rw [List.length_append, List.length_replicate, Nat.cast_add]
  rw [readNumber_point negative rfl all filled, value, count]

/-- Digits are read back where all of them stand before the point, in front of some zeros. -/
theorem readNumber_above (h : Digits ds) (negative : Bool) (zeros : Nat) :
    readNumber negative (ds ++ List.replicate zeros '0' ++ ['.', '0']) =
      .ok (.num (.double (.ofDecimal negative (digitsValue ds) zeros)), []) := by
  have whole : Digits (ds ++ List.replicate zeros '0') := by
    refine ⟨List.forall_mem_append.mpr ⟨h.all, isDigit_zeros zeros⟩,
      List.append_ne_nil_of_left_ne_nil h.filled _, ?_⟩
    rw [List.head?_append_of_ne_nil _ h.filled]
    exact h.lead
  have value : digitsValue (ds ++ List.replicate zeros '0' ++ ['0']) =
      digitsValue ds * 10 ^ (zeros + 1) := by
    rw [List.append_assoc, ← List.replicate_succ', digitsValue_append, digitsValue_zeros,
      List.length_replicate, Nat.add_zero]
  have exponent : -((['0'] : List Char).length : Int) = zeros - ((zeros + 1 : Nat) : Int) := by
    rw [List.length_singleton]
    omega
  rw [readNumber_point negative (whole.whole (stops_point ['0'])) (isDigit_zeros 1)
    (List.cons_ne_nil _ _), value, exponent, Double.ofDecimal_scaled]

/-- Digits are read back where some of them stand on each side of the point. -/
theorem readNumber_between (h : Digits ds) (negative : Bool) {n : Nat} (some_digit : n ≠ 0)
    (more : n < ds.length) :
    readNumber negative (ds.take n ++ '.' :: ds.drop n) =
      .ok (.num (.double (.ofDecimal negative (digitsValue ds) (n - ds.length))), []) := by
  have whole : Digits (ds.take n) := by
    refine ⟨fun c hc => h.all c (List.mem_of_mem_take hc), ?_, ?_⟩
    · rw [Ne, List.take_eq_nil_iff]
      exact not_or.mpr ⟨some_digit, h.filled⟩
    · rw [List.head?_take, if_neg some_digit]
      exact h.lead
  have filled : ds.drop n ≠ [] := mt List.drop_eq_nil_iff.mp more.not_ge
  have exponent : -((ds.drop n).length : Int) = n - ds.length := by
    rw [List.length_drop]
    omega
  rw [readNumber_point negative (whole.whole (stops_point _))
    (fun c hc => h.all c (List.mem_of_mem_drop hc)) filled, List.take_append_drop, exponent]

/-- Digits are read back where the first of them stands before the point and an exponent follows. -/
theorem readNumber_scientific {d : Char} {more : List Char} (h : Digits (d :: more))
    (several : more ≠ []) (negative : Bool) (e : Int) :
    readNumber negative (d :: '.' :: more ++ 'e' :: Double.exponentText e) = .ok (.num (.double
      (.ofDecimal negative (digitsValue (d :: more)) (e - more.length))), []) := by
  obtain ⟨digit, rest⟩ := List.forall_mem_cons.mp h.all
  have first : Digits [d] :=
    ⟨List.forall_mem_singleton.mpr digit, List.cons_ne_nil _ _, h.lead⟩
  exact readNumber_power negative (first.whole (stops_point _))
    (fractionDigits_point rest several (stops_letter _))

/-- Digits are read back from their layout, whatever its form. -/
theorem readNumber_layout (h : Digits ds) (negative : Bool) (point : Int) :
    readNumber negative (Double.layout ds point) = .ok (.num (.double
      (.ofDecimal negative (digitsValue ds) (point - ds.length))), []) := by
  unfold Double.layout
  split
  · split
    · next below =>
      have exponent : -(((-point).toNat : Int) + ds.length) = point - ds.length := by omega
      rw [readNumber_below h, exponent]
    · next above =>
      dsimp only
      split
      · next short =>
        have exponent : ((point.toNat - ds.length : Nat) : Int) = point - ds.length := by omega
        rw [readNumber_above h, exponent]
      · next long =>
        have whole : (point.toNat : Int) = point := by omega
        rw [readNumber_between h negative (by omega) (not_le.mp long), whole]
  · split
    · exact absurd rfl h.filled
    · next d =>
      have read := readNumber_power (e := point - 1) negative (h.whole (stops_letter _)) rfl
      simpa using read
    · next d more several =>
      have exponent : point - 1 - (more.length : Int) = point - ((d :: more).length : Int) := by
        rw [List.length_cons]
        omega
      rw [readNumber_scientific h several, exponent]

/-- Digits are those that are left without the zeros at their end, and these zeros. -/
theorem split_zeros (cs : List Char) :
    cs = (cs.reverse.dropWhile (· == '0')).reverse ++
      List.replicate (cs.reverse.takeWhile (· == '0')).length '0' := by
  have zeros : cs.reverse.takeWhile (· == '0') =
      List.replicate (cs.reverse.takeWhile (· == '0')).length '0' :=
    List.eq_replicate_of_mem fun c hc => by simpa using List.mem_takeWhile_imp hc
  rw [← List.reverse_replicate, ← zeros, ← List.reverse_append, List.takeWhile_append_dropWhile,
    List.reverse_reverse]

/-- The significant digits of a decimal are its digits but for the zeros at their end. -/
theorem significantDigits_spec {x : Double.Decimal} (h : 0 < x.digits) :
    Digits (Double.significantDigits x).1 ∧
      ∃ k : Nat, x.digits = digitsValue (Double.significantDigits x).1 * 10 ^ k ∧
        (Double.significantDigits x).2 =
          (Double.significantDigits x).1.length + k + x.exponent := by
  have lead := digits_lead_ne h
  have value := digitsValue_digits x.digits
  have all := isDigit_significant x
  unfold Double.significantDigits at all ⊢
  dsimp only at all ⊢
  generalize Nat.toDigits 10 x.digits = full at *
  have split := split_zeros full
  generalize (full.reverse.dropWhile (· == '0')).reverse = ds at *
  generalize (full.reverse.takeWhile (· == '0')).length = k at *
  subst split
  rw [digitsValue_append, digitsValue_zeros, Nat.add_zero, List.length_replicate] at value
  have filled : ds ≠ [] := by
    rintro rfl
    rw [← value] at h
    exact absurd h (by simp [digitsValue])
  rw [List.head?_append_of_ne_nil _ filled] at lead
  refine ⟨⟨all, filled, lead⟩, k, value.symm, ?_⟩
  rw [List.length_append, List.length_replicate]
  push_cast
  rfl

variable {scale : Fin 2047} {fraction : Fin 4503599627370496}

/-- The magnitude of a double is read back, with the sign in front of it. -/
theorem readNumber_magnitude (negative : Bool) :
    readNumber negative (Double.magnitudeText scale fraction) =
      .ok (.num (.double (.finite negative scale fraction)), []) := by
  unfold Double.magnitudeText
  split
  · next zero =>
    obtain ⟨rfl, rfl⟩ := Double.eq_zero_of_magnitude zero
    cases negative <;> rfl
  · next positive =>
    have reads := Double.shortest_reads positive
    have some_digit := Double.shortest_pos positive
    obtain ⟨digits, k, value, point⟩ := significantDigits_spec some_digit
    have read := readNumber_layout digits negative
      (Double.significantDigits (Double.shortest scale fraction)).2
    have exponent : (Double.significantDigits (Double.shortest scale fraction)).2 -
        (Double.significantDigits (Double.shortest scale fraction)).1.length =
          k + (Double.shortest scale fraction).exponent := by
      omega
    have same : (k : Int) + (Double.shortest scale fraction).exponent - k =
      (Double.shortest scale fraction).exponent := by omega
    rw [exponent, ← Double.ofDecimal_scaled negative _ k, ← value, same,
      Double.ofDecimal_sign reads] at read
    exact read

theorem wholeDigits_digits (n : Nat) :
    wholeDigits (Nat.toDigits 10 n) = some (Nat.toDigits 10 n, []) := by
  rcases Nat.eq_zero_or_pos n with rfl | positive
  · rfl
  · have digits : Digits (Nat.toDigits 10 n) :=
      ⟨fun c => isDigit_of_mem_digits, Nat.toDigits_ne_nil, digits_lead_ne positive⟩
    have nothing : StopsDigits [] := fun _ h => nomatch h
    rw [← List.append_nil (Nat.toDigits 10 n), digits.whole nothing, List.append_nil]

/-- Digits without a point are read as an integer, unless they are too many. -/
theorem readNumber_digits (negative : Bool) (n : Nat) :
    readNumber negative (Nat.toDigits 10 n) =
      if digitLimit < (Nat.toDigits 10 n).length then
        .error (.integerTooLong (Nat.toDigits 10 n).length)
      else .ok (.num (.int (if negative then -(n : Int) else n)), []) := by
  have value := digitsValue_digits n
  unfold readNumber
  rw [wholeDigits_digits]
  dsimp only [fractionDigits, exponent?]
  rw [value]

end

/-! ## Numbers are read back -/

section

variable {n : Number} {negative : Bool} {ds : List Char}

theorem readScalar_digits (h : ∃ c cs, ds = c :: cs ∧ c.isDigit = true)
    (text : wire.number n = signText negative ++ ds) :
    readScalar (wire.number n) = readNumber negative ds := by
  obtain ⟨c, cs, rfl, digit⟩ := h
  rw [text, readScalar_number negative digit]

theorem ofText_of_ok {x : Json} (read : readScalar (wire.number n) = .ok (x, [])) :
    ofText (Json.num n).toText = .ok x := by
  rw [ofText_num, ofChars, readValue_text, read]
  rfl

theorem ofText_of_error {e : TextFault} (read : readScalar (wire.number n) = .error e) :
    ofText (Json.num n).toText = .error e := by
  rw [ofText_num, ofChars, readValue_text, read]

end

/-- Every number is read back from its text, but for integers with more digits than are read. -/
theorem readsBack_iff (n : Number) :
    ReadsBack n ↔ ∀ k, n = .int k → (Nat.toDigits 10 k.natAbs).length ≤ digitLimit := by
  rcases n with k | (_ | negative | ⟨negative, scale, fraction⟩)
  · have read := (readScalar_digits (digits_lead k.natAbs) (wire_int k)).trans
      (readNumber_digits _ k.natAbs)
    rw [Double.signed_natAbs] at read
    simp only [Number.int.injEq, forall_eq']
    split at read
    · next long =>
      have fault := ofText_of_error read
      refine iff_of_false (fun back => ?_) (not_le.mpr long)
      rw [ReadsBack, fault] at back
      exact nomatch back
    · next short => exact iff_of_true (ofText_of_ok read) (not_lt.mp short)
  · exact iff_of_true rfl (fun _ h => nomatch h)
  · cases negative <;> exact iff_of_true rfl (fun _ h => nomatch h)
  · have read := (readScalar_digits (lead_magnitude scale fraction)
      (wire_double negative)).trans (readNumber_magnitude negative)
    exact iff_of_true (ofText_of_ok read) (fun _ h => nomatch h)

end Json

end SchemaDrift
