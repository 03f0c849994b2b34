import SchemaDrift.Proofs.Json.Quoting

/-!
# Digits and what follows values

* `Json.StopsDigits` says that a rest does not go on with the digits in front of it; then
  `Json.takeWhile_digits` finds their end.
* `Json.FollowsValue` says that a rest may follow a value in an array or an object.
-/

namespace SchemaDrift.Json

/-! ## Digits -/

/-- A rest that does not go on with the digits in front of it. -/
def StopsDigits (rest : List Char) : Prop := ∀ c ∈ rest.head?, c.isDigit = false

theorem takeWhile_stops {rest : List Char} (h : StopsDigits rest) :
    rest.takeWhile Char.isDigit = [] := by
  cases rest with
  | nil => rfl
  | cons c rest => simp [h c rfl]

theorem ne_of_isDigit {c d : Char} (hc : c.isDigit = true) (hd : d.isDigit = false) : c ≠ d := by
  rintro rfl
  rw [hc] at hd
  exact nomatch hd

theorem isDigit_of_mem_digits {n : Nat} {c : Char} (h : c ∈ Nat.toDigits 10 n) :
    c.isDigit = true := Nat.isDigit_of_mem_toDigits (by decide) (by decide) h

theorem takeWhile_digits (n : Nat) {rest : List Char} (h : StopsDigits rest) :
    (Nat.toDigits 10 n ++ rest).takeWhile Char.isDigit = Nat.toDigits 10 n := by
  rw [List.takeWhile_append_of_pos fun _ => isDigit_of_mem_digits, takeWhile_stops h,
    List.append_nil]

theorem toString_ofNat_toList (n : Nat) : (toString (Int.ofNat n)).toList = Nat.toDigits 10 n :=
  Nat.toList_repr

theorem toString_negSucc_toList (n : Nat) :
    (toString (Int.negSucc n)).toList = '-' :: Nat.toDigits 10 (n + 1) := by
  show ("-" ++ Nat.repr (n + 1)).toList = _
  simp [Nat.toList_repr]

theorem stopsDigits_of_lead {c : Char} (h : c.isDigit = false) (rest : List Char) :
    StopsDigits (c :: rest) := by
  intro d hd
  have : c = d := by simpa using hd
  exact this ▸ h

theorem digits_lead (n : Nat) :
    ∃ c cs, Nat.toDigits 10 n = c :: cs ∧ c.isDigit = true := by
  rcases h : Nat.toDigits 10 n with _ | ⟨c, cs⟩
  · exact absurd h Nat.toDigits_ne_nil
  · exact ⟨c, cs, rfl, isDigit_of_mem_digits (h ▸ List.mem_cons_self)⟩

/-! ## What follows a value -/

/-- What may follow a value: the end, or a character that goes on with an array or an object. -/
def FollowsValue (rest : List Char) : Prop := ∀ c ∈ rest.head?, c = ',' ∨ c = ']' ∨ c = '}'

theorem FollowsValue.stopsDigits {rest : List Char} (h : FollowsValue rest) :
    StopsDigits rest := by
  intro c hc
  rcases h c hc with rfl | rfl | rfl <;> decide

theorem followsValue_of_lead {c : Char} (h : c = ',' ∨ c = ']' ∨ c = '}') (rest : List Char) :
    FollowsValue (c :: rest) := by
  intro d hd
  have : c = d := by simpa using hd
  exact this ▸ h

theorem followsValue_items {sp : Spelling} (xs : List Json) (rest : List Char) :
    FollowsValue (spellItems sp [',', ' '] xs (']' :: rest)) := by
  cases xs with
  | nil => exact followsValue_of_lead (.inr (.inl rfl)) _
  | cons x xs => exact followsValue_of_lead (.inl rfl) _

theorem followsValue_fields {sp : Spelling} (fs : List (String × Json)) (rest : List Char) :
    FollowsValue (spellFields sp [',', ' '] fs ('}' :: rest)) := by
  cases fs with
  | nil => exact followsValue_of_lead (.inr (.inr rfl)) _
  | cons f fs => exact followsValue_of_lead (.inl rfl) _

end SchemaDrift.Json
