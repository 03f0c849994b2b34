import SchemaDrift.Proofs.Json.Reader
import SchemaDrift.Proofs.Json.Digits

/-!
# Numerals

A number is written with visible characters, and its first one tells it from all other values. What
is read as a number does not depend on what follows, if that is what may follow a value.

* `Json.visible_number` and `Json.number_lead` are about the characters of a number.
* `Json.readNumber_append` and `Json.readNumber_suffix` say what reading leaves.
* `Json.ReadsBack` says that a number is read back from its text, `Json.ReadsBack.append` that it
  is so in front of anything that may follow a value.
-/

namespace SchemaDrift

namespace Json

/-! ## Characters of numbers -/

/-- An ASCII character that leaves a mark. -/
def Visible (c : Char) : Prop := ' ' < c ∧ c ≤ '~'

instance : DecidablePred Visible := fun c => inferInstanceAs (Decidable (' ' < c ∧ c ≤ '~'))

theorem Visible.not_blank {c : Char} (h : Visible c) : isBlank c = false := by
  have apart (d : Char) (hd : ¬ ' ' < d) : c ≠ d := by
    rintro rfl
    exact hd h.1
  simp [isBlank, apart ' ' (by decide), apart '\t' (by decide), apart '\n' (by decide),
    apart '\r' (by decide)]

/-- That all characters of a given text have a property is found by looking at each. -/
theorem forall_of_all {P : Char → Prop} [DecidablePred P] {cs : List Char}
    (h : (cs.all fun c => decide (P c)) = true) : ∀ c ∈ cs, P c := by
  simpa using h

theorem visible_digit {c : Char} (h : c.isDigit = true) : Visible c := by
  simp only [Char.isDigit, Bool.and_eq_true, decide_eq_true_eq] at h
  exact ⟨lt_of_lt_of_le (by decide) h.1, le_trans (b := '9') h.2 (by decide)⟩

theorem visible_digits {n : Nat} {c : Char} (h : c ∈ Nat.toDigits 10 n) : Visible c :=
  visible_digit (isDigit_of_mem_digits h)

section

variable {P : Char → Prop} (digit : ∀ c, c.isDigit = true → P c)
  (mark : ∀ c ∈ ['.', '+', '-', 'e'], P c)

include digit mark

theorem forall_exponentText (e : Int) : ∀ c ∈ Double.exponentText e, P c := by
  have digits : ∀ c ∈ Nat.toDigits 10 e.natAbs, P c := fun c h => digit c (isDigit_of_mem_digits h)
  intro c h
  unfold Double.exponentText at h
  dsimp only at h
  rcases List.mem_cons.mp h with rfl | h
  · split
    · exact mark '-' (by decide)
    · exact mark '+' (by decide)
  · split at h
    · rcases List.mem_cons.mp h with rfl | h
      · exact digit '0' (by decide)
      · exact digits c h
    · exact digits c h

theorem forall_zero : ∀ c ∈ ['0', '.', '0'], P c := by
  have ⟨zero, dot⟩ : P '0' ∧ P '.' := ⟨digit '0' (by decide), mark '.' (by decide)⟩
  simp only [List.forall_mem_cons]
  exact ⟨zero, dot, zero, List.forall_mem_nil _⟩

/-- Digits are laid out with digits, points, signs and the letter of an exponent only. -/
theorem forall_layout {ds : List Char} (hds : ∀ c ∈ ds, c.isDigit = true) (point : Int) :
    ∀ c ∈ Double.layout ds point, P c := by
  have digits : ∀ c ∈ ds, P c := fun c h => digit c (hds c h)
  have zeros (n : Nat) : ∀ c ∈ List.replicate n '0', P c := fun c h => by
    rw [List.eq_of_mem_replicate h]
    exact digit '0' (by decide)
  have zero : P '0' := digit '0' (by decide)
  have dot : P '.' := mark '.' (by decide)
  have letter : P 'e' := mark 'e' (by decide)
  have exponent := forall_exponentText digit mark (point - 1)
  unfold Double.layout
  split
  · split
    · simp only [List.forall_mem_cons, List.forall_mem_append]
      exact ⟨zero, dot, zeros _, digits⟩
    · dsimp only
      split
      · simp only [List.forall_mem_cons, List.forall_mem_append]
        exact ⟨⟨digits, zeros _⟩, dot, zero, List.forall_mem_nil _⟩
      · simp only [List.forall_mem_cons, List.forall_mem_append]
        exact ⟨fun c h => digits c (List.mem_of_mem_take h), dot,
          fun c h => digits c (List.mem_of_mem_drop h)⟩
  · split
    · exact forall_zero digit mark
    · simp only [List.forall_mem_cons] at digits ⊢
      exact ⟨digits.1, letter, exponent⟩
    · simp only [List.forall_mem_cons, List.forall_mem_append] at digits ⊢
      exact ⟨⟨digits.1, dot, digits.2⟩, letter, exponent⟩

end

section

variable {ds : List Char}

/-- Digits are laid out with a digit in front. -/
theorem lead_layout (hds : ∀ c ∈ ds, c.isDigit = true) (point : Int) :
    ∃ d more, Double.layout ds point = d :: more ∧ d.isDigit = true := by
  unfold Double.layout
  split
  · split
    · exact ⟨'0', _, rfl, by decide⟩
    · next positive =>
      dsimp only
      have whole : 0 < point.toNat := by omega
      obtain ⟨n, more⟩ := Nat.exists_eq_succ_of_ne_zero whole.ne'
      rw [more]
      cases ds with
      | nil => exact ⟨'0', List.replicate n '0' ++ ['.', '0'], rfl, by decide⟩
      | cons d ds =>
        have digit := hds d List.mem_cons_self
        split
        · exact ⟨d, _, rfl, digit⟩
        · exact ⟨d, _, rfl, digit⟩
  · split
    · exact ⟨'0', _, rfl, by decide⟩
    · exact ⟨_, _, rfl, hds _ List.mem_cons_self⟩
    · exact ⟨_, _, rfl, hds _ List.mem_cons_self⟩

end

/-- The significant digits of a decimal are digits. -/
theorem isDigit_significant (x : Double.Decimal) :
    ∀ c ∈ (Double.significantDigits x).1, c.isDigit = true := by
  intro c h
  have inside := (List.dropWhile_sublist _).subset (List.mem_reverse.mp h)
  exact isDigit_of_mem_digits (List.mem_reverse.mp inside)

variable (scale : Fin 2047) (fraction : Fin 4503599627370496)

/-- The same of the text of a magnitude. -/
theorem forall_magnitude {P : Char → Prop} (digit : ∀ c, c.isDigit = true → P c)
    (mark : ∀ c ∈ ['.', '+', '-', 'e'], P c) :
    ∀ c ∈ Double.magnitudeText scale fraction, P c := by
  unfold Double.magnitudeText
  split
  · exact forall_zero digit mark
  · exact forall_layout digit mark (isDigit_significant _) _

theorem lead_magnitude :
    ∃ d more, Double.magnitudeText scale fraction = d :: more ∧ d.isDigit = true := by
  unfold Double.magnitudeText
  split
  · exact ⟨'0', _, rfl, by decide⟩
  · exact lead_layout (isDigit_significant _) _

/-! ## Texts of numbers -/

/-- A character that the text of a number may start with. -/
def StartsNumber (c : Char) : Prop := c.isDigit = true ∨ c = '-' ∨ c = 'N' ∨ c = 'I'

instance : DecidablePred StartsNumber := fun c =>
  inferInstanceAs (Decidable (c.isDigit = true ∨ c = '-' ∨ c = 'N' ∨ c = 'I'))

variable {scale : Fin 2047} {fraction : Fin 4503599627370496}

theorem StartsNumber.ne {c d : Char} (h : StartsNumber c) (hd : ¬ StartsNumber d) : c ≠ d := by
  rintro rfl
  exact hd h

def signText (negative : Bool) : List Char := if negative then ['-'] else []

theorem wire_int (n : Int) :
    wire.number (.int n) = signText (decide (n < 0)) ++ Nat.toDigits 10 n.natAbs := by
  rcases n with m | m
  · exact toString_ofNat_toList m
  · have negative : decide (Int.negSucc m < 0) = true := decide_eq_true (Int.negSucc_lt_zero m)
    rw [negative]
    exact toString_negSucc_toList m

theorem wire_double (negative : Bool) :
    wire.number (.double (.finite negative scale fraction)) =
      signText negative ++ Double.magnitudeText scale fraction := by
  cases negative <;> exact String.toList_ofList

/-- Numbers are written with visible characters only. -/
theorem visible_number (n : Number) : ∀ c ∈ wire.number n, Visible c := by
  have sign (negative : Bool) : ∀ c ∈ signText negative, Visible c := by
    cases negative <;> exact forall_of_all (by decide)
  rcases n with n | (_ | negative | ⟨negative, scale, fraction⟩)
  · rw [wire_int]
    exact List.forall_mem_append.mpr ⟨sign _, fun c h => visible_digits h⟩
  · exact forall_of_all (by decide)
  · cases negative <;> exact forall_of_all (by decide)
  · rw [wire_double]
    have magnitude := forall_magnitude scale fraction (fun _ => visible_digit)
      (forall_of_all (by decide))
    exact List.forall_mem_append.mpr ⟨sign _, magnitude⟩

/-- A number is written as a word or with a digit behind its sign. -/
theorem number_text (n : Number) :
    n = .double .nan ∨ (∃ negative, n = .double (.infinite negative)) ∨
      ∃ negative c cs, wire.number n = signText negative ++ c :: cs ∧ c.isDigit = true := by
  rcases n with n | (_ | negative | ⟨negative, scale, fraction⟩)
  · obtain ⟨c, cs, digits, digit⟩ := digits_lead n.natAbs
    exact .inr (.inr ⟨_, c, cs, (wire_int n).trans (congrArg _ digits), digit⟩)
  · exact .inl rfl
  · exact .inr (.inl ⟨negative, rfl⟩)
  · obtain ⟨c, cs, text, digit⟩ := lead_magnitude scale fraction
    exact .inr (.inr ⟨negative, c, cs, (wire_double negative).trans (congrArg _ text), digit⟩)

/-- The text of a number starts with a digit, a sign or a word. -/
theorem number_lead (n : Number) : ∃ c cs, wire.number n = c :: cs ∧ StartsNumber c := by
  obtain rfl | ⟨negative, rfl⟩ | ⟨negative, c, cs, text, digit⟩ := number_text n
  · exact ⟨'N', ['a', 'N'], rfl, by decide⟩
  · cases negative
    · exact ⟨'I', ['n', 'f', 'i', 'n', 'i', 't', 'y'], rfl, by decide⟩
    · exact ⟨'-', ['I', 'n', 'f', 'i', 'n', 'i', 't', 'y'], rfl, by decide⟩
  · rw [text]
    cases negative
    · exact ⟨c, cs, rfl, .inl digit⟩
    · exact ⟨'-', c :: cs, rfl, by decide⟩

/-! ## What follows a number does not matter -/

section

variable {rest : List Char}

theorem takeWhile_append_stops (cs : List Char) (h : StopsDigits rest) :
    (cs ++ rest).takeWhile Char.isDigit = cs.takeWhile Char.isDigit := by
  induction cs with
  | nil => exact takeWhile_stops h
  | cons c cs ih => simp only [List.cons_append, List.takeWhile_cons, ih]

theorem dropWhile_append_stops (cs : List Char) (h : StopsDigits rest) :
    (cs ++ rest).dropWhile Char.isDigit = cs.dropWhile Char.isDigit ++ rest := by
  induction cs with
  | nil =>
    cases rest with
    | nil => rfl
    | cons c rest => simp [h c rfl]
  | cons c cs ih =>
    simp only [List.cons_append, List.dropWhile_cons, ih]
    split <;> rfl

theorem wholeDigits_append {cs whole r : List Char} (h : StopsDigits rest)
    (read : wholeDigits cs = some (whole, r)) :
    wholeDigits (cs ++ rest) = some (whole, r ++ rest) := by
  cases cs with
  | nil => exact nomatch read
  | cons c cs =>
    simp only [wholeDigits, List.cons_append, takeWhile_append_stops cs h,
      dropWhile_append_stops cs h] at read ⊢
    split at read
    · next zero =>
      rw [if_pos zero]
      cases read
      rfl
    · next nonzero =>
      rw [if_neg nonzero]
      split at read
      · next digit =>
        rw [if_pos digit]
        cases read
        rfl
      · exact nomatch read

theorem FollowsValue.ne {c : Char} {more : List Char} (h : FollowsValue (c :: more)) {d : Char}
    (hd : ¬ (d = ',' ∨ d = ']' ∨ d = '}')) : c ≠ d := by
  rintro rfl
  exact hd (h c rfl)

theorem fractionDigits_append (cs : List Char) (h : FollowsValue rest) :
    fractionDigits (cs ++ rest) = ((fractionDigits cs).1, (fractionDigits cs).2 ++ rest) := by
  have stops := h.stopsDigits
  rcases cs with _ | ⟨c, _ | ⟨d, cs⟩⟩
  · rcases rest with _ | ⟨d, rest⟩
    · rfl
    · have point : d ≠ '.' := h.ne (by decide)
      simp [fractionDigits, point]
  · rcases rest with _ | ⟨d, rest⟩
    · simp
    · by_cases point : c = '.'
      · subst point
        simp [fractionDigits, stops d rfl]
      · simp [fractionDigits, point]
  · by_cases point : c = '.'
    · subst point
      simp only [fractionDigits, List.cons_append, takeWhile_append_stops cs stops,
        dropWhile_append_stops cs stops]
      split <;> rfl
    · simp [fractionDigits, point]

theorem exponentDigits_append (negative : Bool) (cs : List Char) (h : StopsDigits rest) :
    exponentDigits negative (cs ++ rest) =
      (exponentDigits negative cs).map fun (e, r) => (e, r ++ rest) := by
  cases cs with
  | nil =>
    cases rest with
    | nil => rfl
    | cons c rest => simp [exponentDigits, h c rfl]
  | cons d cs =>
    simp only [exponentDigits, List.cons_append, takeWhile_append_stops cs h,
      dropWhile_append_stops cs h]
    split <;> rfl

theorem exponent?_append (cs : List Char) (h : FollowsValue rest) :
    exponent? (cs ++ rest) = (exponent? cs).map fun (e, r) => (e, r ++ rest) := by
  have stops := h.stopsDigits
  rcases cs with _ | ⟨c, cs⟩
  · cases rest with
    | nil => rfl
    | cons c rest =>
      have small : c ≠ 'e' := h.ne (by decide)
      have large : c ≠ 'E' := h.ne (by decide)
      simp [exponent?, small, large]
  · simp only [exponent?, List.cons_append]
    split
    · rcases cs with _ | ⟨sign, cs⟩
      · cases rest with
        | nil => rfl
        | cons d rest =>
          rcases h d rfl with rfl | rfl | rfl <;> rfl
      · by_cases plus : sign = '+'
        · subst plus
          exact exponentDigits_append false cs stops
        · by_cases minus : sign = '-'
          · subst minus
            exact exponentDigits_append true cs stops
          · have step := exponentDigits_append false (sign :: cs) stops
            simpa [plus, minus] using step
    · rfl

/-- A number is read the same in front of anything that may follow a value. -/
theorem readNumber_append {negative : Bool} {cs r : List Char} {x : Json} (h : FollowsValue rest)
    (read : readNumber negative cs = .ok (x, r)) :
    readNumber negative (cs ++ rest) = .ok (x, r ++ rest) := by
  unfold readNumber at read ⊢
  rcases digits : wholeDigits cs with _ | ⟨whole, after⟩
  · rw [digits] at read
    exact nomatch read
  rw [digits] at read
  rw [wholeDigits_append h.stopsDigits digits]
  dsimp only at read ⊢
  rw [fractionDigits_append after h, exponent?_append _ h]
  rcases point : fractionDigits after with ⟨fraction, behind⟩
  rw [point] at read
  dsimp only at read ⊢
  rcases letter : exponent? behind with _ | ⟨e, last⟩ <;> rw [letter] at read
  · rcases fraction with _ | ⟨d, ds⟩
    · dsimp only [Option.map] at read ⊢
      split at read
      · exact nomatch read
      · next short =>
        rw [if_neg short]
        cases read
        rfl
    · cases read
      rfl
  · cases fraction <;> cases read <;> rfl

/-! ## Numbers are told from words -/

/-- No word of JSON texts starts as a number with digits does. -/
theorem readScalar_number (negative : Bool) {c : Char} (digit : c.isDigit = true)
    (cs : List Char) :
    readScalar (signText negative ++ c :: cs) = readNumber negative (c :: cs) := by
  have apart (d : Char) (hd : d.isDigit = false) : d ≠ c := (ne_of_isDigit digit hd).symm
  cases negative with
  | true =>
    have infinity : afterWord "-Infinity".toList ('-' :: c :: cs) = none :=
      (if_pos rfl).trans (if_neg (apart 'I' (by decide)))
    show readScalar ('-' :: c :: cs) = _
    unfold readScalar
    rw [infinity]
    rfl
  | false =>
    have null : afterWord "null".toList (c :: cs) = none := if_neg (apart 'n' (by decide))
    have yes : afterWord "true".toList (c :: cs) = none := if_neg (apart 't' (by decide))
    have no : afterWord "false".toList (c :: cs) = none := if_neg (apart 'f' (by decide))
    have nan : afterWord "NaN".toList (c :: cs) = none := if_neg (apart 'N' (by decide))
    have infinity : afterWord "Infinity".toList (c :: cs) = none := if_neg (apart 'I' (by decide))
    have minus : afterWord "-Infinity".toList (c :: cs) = none := if_neg (apart '-' (by decide))
    show readScalar (c :: cs) = _
    unfold readScalar
    simp only [null, yes, no, nan, infinity, minus]
    split
    · next same => exact absurd (List.cons.inj same).1.symm (apart '-' (by decide))
    · rfl

/-! ## What is left behind a number is the end of the text -/

theorem wholeDigits_suffix {cs ds r : List Char} (h : wholeDigits cs = some (ds, r)) :
    r <:+ cs := by
  cases cs with
  | nil => exact nomatch h
  | cons c cs =>
    have later : cs <:+ c :: cs := List.suffix_cons c cs
    simp only [wholeDigits] at h
    split at h
    · cases h
      exact later
    split at h
    · cases h
      exact (List.dropWhile_suffix _).trans later
    · exact nomatch h

theorem fractionDigits_suffix (cs : List Char) : (fractionDigits cs).2 <:+ cs := by
  unfold fractionDigits
  split
  · split
    · exact (List.dropWhile_suffix _).trans ((List.suffix_cons _ _).trans (List.suffix_cons _ _))
    · exact List.suffix_rfl
  · exact List.suffix_rfl

theorem exponentDigits_suffix {negative : Bool} {cs r : List Char} {e : Int}
    (h : exponentDigits negative cs = some (e, r)) : r <:+ cs := by
  cases cs with
  | nil => exact nomatch h
  | cons d cs =>
    simp only [exponentDigits] at h
    split at h
    · cases h
      exact (List.dropWhile_suffix _).trans (List.suffix_cons d cs)
    · exact nomatch h

theorem exponent?_suffix {cs r : List Char} {e : Int} (h : exponent? cs = some (e, r)) :
    r <:+ cs := by
  cases cs with
  | nil => exact nomatch h
  | cons c cs =>
    have later : cs <:+ c :: cs := List.suffix_cons c cs
    simp only [exponent?] at h
    split at h
    · split at h
      · exact (exponentDigits_suffix h).trans ((List.suffix_cons _ _).trans later)
      · exact (exponentDigits_suffix h).trans ((List.suffix_cons _ _).trans later)
      · exact (exponentDigits_suffix h).trans later
    · exact nomatch h

theorem readNumber_suffix {negative : Bool} {cs r : List Char} {x : Json}
    (read : readNumber negative cs = .ok (x, r)) : r <:+ cs := by
  unfold readNumber at read
  split at read
  · exact nomatch read
  next digits =>
  have behind := (fractionDigits_suffix _).trans (wholeDigits_suffix digits)
  dsimp only at read
  split at read
  · split at read
    · exact nomatch read
    · cases read
      exact behind
  · cases read
    exact behind
  · next power =>
    cases read
    exact (exponent?_suffix power).trans behind

/-! ## Numbers are read back -/

/-- A number is read back from its text. -/
def ReadsBack (n : Number) : Prop := ofText (Json.num n).toText = .ok (.num n)

theorem skipBlanks_visible {c : Char} (h : Visible c) (cs : List Char) :
    skipBlanks (c :: cs) = c :: cs := by
  simp [skipBlanks, h.not_blank]

theorem readValue_number {c : Char} (h : StartsNumber c) (fuel : Nat) (cs : List Char) :
    readValue (fuel + 1) (c :: cs) = readScalar (c :: cs) := by
  rw [readValue, if_neg (h.ne (by decide)), if_neg (h.ne (by decide)), if_neg (h.ne (by decide))]

theorem ofText_num (n : Number) : ofText (Json.num n).toText = ofChars (wire.number n) := by
  rw [ofText, toText, inSpelling, String.toList_ofList, spell, List.append_nil]

theorem readValue_text (n : Number) (fuel : Nat) :
    readValue (fuel + 1) (skipBlanks (wire.number n)) = readScalar (wire.number n) := by
  obtain ⟨c, cs, text, start⟩ := number_lead n
  have visible : Visible c := visible_number n c (text ▸ List.mem_cons_self)
  rw [text, skipBlanks_visible visible, readValue_number start]

theorem ReadsBack.scalar {n : Number} (h : ReadsBack n) :
    ∃ r, readScalar (wire.number n) = .ok (.num n, r) ∧ skipBlanks r = [] := by
  unfold ReadsBack at h
  rw [ofText_num, ofChars, readValue_text] at h
  split at h
  · exact nomatch h
  next x r read =>
  split at h
  · next ended =>
    cases h
    exact ⟨r, read, by simpa using ended⟩
  · exact nomatch h

/-- A number that is read back from its text is so in front of anything that may follow it. -/
theorem ReadsBack.append {n : Number} (h : ReadsBack n) {rest : List Char}
    (follows : FollowsValue rest) : readScalar (wire.number n ++ rest) = .ok (.num n, rest) := by
  obtain rfl | ⟨negative, rfl⟩ | ⟨negative, c, cs, text, digit⟩ := number_text n
  · rfl
  · cases negative <;> rfl
  · obtain ⟨r, read, blank⟩ := h.scalar
    have visible := visible_number n
    rw [text] at read visible ⊢
    rw [readScalar_number negative digit] at read
    have nothing : r = [] := by
      cases r with
      | nil => rfl
      | cons d r =>
        have inside := (readNumber_suffix read).subset (List.mem_cons_self (a := d))
        have seen := visible d (List.mem_append_right _ inside)
        rw [skipBlanks_visible seen] at blank
        exact nomatch blank
    rw [List.append_assoc, List.cons_append, readScalar_number negative digit,
      ← List.cons_append, readNumber_append follows read, nothing, List.nil_append]

end

end Json

end SchemaDrift
