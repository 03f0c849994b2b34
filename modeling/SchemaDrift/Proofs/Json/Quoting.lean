import Mathlib.Data.Char
import SchemaDrift.Json.Reader
import SchemaDrift.Json.Text

/-!
# JSON strings are read back

* `Json.unit?_hex`: a code unit is read back from its four hexadecimal digits.
* `Json.stringCodes_escaped`: the units of each character are read back from its escape.
* `Json.joinHalves_units`: the characters are read back from their units.
* `Json.readString_stringText`: a string is read back from its text, whatever follows.
-/

namespace SchemaDrift

namespace Text

theorem hexValue?_hexDigit (n : Nat) (h : n < 16) : hexValue? (hexDigit n) = some n := by
  have all : ∀ k : Fin 16, hexValue? (hexDigit k) = some k.val := by decide
  exact all ⟨n, h⟩

end Text

namespace Json

/-- A code unit is read back from its four hexadecimal digits. -/
theorem unit?_hex {n : Nat} (h : n < 65536) :
    unit? (Text.hexDigit (n / 16 / 16 / 16 % 16)) (Text.hexDigit (n / 16 / 16 % 16))
      (Text.hexDigit (n / 16 % 16)) (Text.hexDigit (n % 16)) = some n := by
  have digit (k : Nat) : Text.hexValue? (Text.hexDigit (k % 16)) = some (k % 16) :=
    Text.hexValue?_hexDigit _ (Nat.mod_lt _ (by decide))
  simp only [unit?, digit, bind, Option.bind, Option.some.injEq]
  omega

def units (c : Char) : List Nat :=
  if c.toNat < 65536 then [c.toNat]
  else [55296 + (c.toNat - 65536) / 1024, 56320 + (c.toNat - 65536) % 1024]

def withCodes (codes : List Nat) (read : Option (List Nat × List Char)) :
    Option (List Nat × List Char) :=
  read.map fun (more, after) => (codes ++ more, after)

theorem stringCodes_unitEscape {n : Nat} (h : n < 65536) (more : List Char) :
    stringCodes (unitEscape n ++ more) = withCodes [n] (stringCodes more) := by
  have text : unitEscape n ++ more =
      '\\' :: 'u' :: Text.hexDigit (n / 16 / 16 / 16 % 16) :: Text.hexDigit (n / 16 / 16 % 16) ::
        Text.hexDigit (n / 16 % 16) :: Text.hexDigit (n % 16) :: more := rfl
  rw [text, stringCodes.eq_def]
  simp only [unit?_hex h]
  rcases stringCodes more with _ | ⟨codes, after⟩ <;> rfl

theorem stringCodes_shortEscape {e : Char} {n : Nat} (h : shortEscape? e = some n)
    (notUnit : e ≠ 'u') (more : List Char) :
    stringCodes ('\\' :: e :: more) = withCodes [n] (stringCodes more) := by
  rw [stringCodes.eq_def]
  simp only [h, if_neg notUnit]
  rcases stringCodes more with _ | ⟨codes, after⟩ <;> rfl

theorem stringCodes_plain {c : Char} (quote : c ≠ '\x22') (backslash : c ≠ '\\') (low : ¬ c < ' ')
    (more : List Char) : stringCodes (c :: more) = withCodes [c.toNat] (stringCodes more) := by
  rw [stringCodes.eq_def]
  simp only [if_neg quote, if_neg backslash, if_neg low]
  rcases stringCodes more with _ | ⟨codes, after⟩ <;> rfl

theorem withCodes_append (codes more : List Nat) (read : Option (List Nat × List Char)) :
    withCodes codes (withCodes more read) = withCodes (codes ++ more) read := by
  rcases read with _ | ⟨rest, after⟩ <;> simp [withCodes]

theorem toNat_lt (c : Char) : c.toNat < 1114112 := by
  have valid := c.valid
  simp only [UInt32.isValidChar, Nat.isValidChar] at valid
  show c.val.toNat < _
  omega

theorem units_of_lt {c : Char} (h : c.toNat < 65536) : units c = [c.toNat] := if_pos h

/-- The units of a character are read back from its escape. -/
theorem stringCodes_escapedChar (c : Char) (more : List Char) :
    stringCodes (escapedChar c ++ more) = withCodes (units c) (stringCodes more) := by
  unfold escapedChar
  split
  · next h =>
    have short : shortEscape? c = some c.toNat := by
      rcases h with rfl | rfl <;> rfl
    have notUnit : c ≠ 'u' := by
      rcases h with rfl | rfl <;> decide
    have small : c.toNat < 65536 := by
      rcases h with rfl | rfl <;> decide
    rw [units_of_lt small]
    exact stringCodes_shortEscape short notUnit more
  next special =>
  obtain ⟨quote, backslash⟩ := not_or.mp special
  split
  · next h => subst h; exact stringCodes_shortEscape rfl (by decide) more
  split
  · next h => subst h; exact stringCodes_shortEscape rfl (by decide) more
  split
  · next h => subst h; exact stringCodes_shortEscape rfl (by decide) more
  split
  · next h => subst h; exact stringCodes_shortEscape rfl (by decide) more
  split
  · next h => subst h; exact stringCodes_shortEscape rfl (by decide) more
  split
  · next printable =>
    have small : c.toNat < 65536 := by
      have : c.toNat ≤ '~'.toNat := printable.2
      exact Nat.lt_of_le_of_lt this (by decide)
    rw [units_of_lt small]
    exact stringCodes_plain quote backslash (Char.not_lt.mpr printable.1) more
  split
  · next small =>
    rw [units_of_lt small]
    exact stringCodes_unitEscape small more
  · next large =>
    have bound := toNat_lt c
    simp only [List.append_assoc]
    rw [stringCodes_unitEscape (by omega), stringCodes_unitEscape (by omega), withCodes_append,
      units, if_neg large]
    rfl

theorem stringCodes_escaped (cs rest : List Char) :
    stringCodes (cs.flatMap escapedChar ++ '\x22' :: rest) = some (cs.flatMap units, rest) := by
  induction cs with
  | nil => simp [stringCodes.eq_def]
  | cons c cs ih =>
    simp only [List.flatMap_cons, List.append_assoc]
    rw [stringCodes_escapedChar, ih]
    rfl

/-- A character with one unit is read back from it, since no character is half of a pair. -/
theorem joinHalves_units (cs : List Char) : joinHalves none (cs.flatMap units) = cs := by
  induction cs with
  | nil => rfl
  | cons c cs ih =>
    have valid := c.valid
    simp only [UInt32.isValidChar, Nat.isValidChar] at valid
    have code : c.val.toNat = c.toNat := rfl
    rw [List.flatMap_cons, units]
    split
    · next small =>
      have high : isHighHalf c.toNat = false := by
        simp only [isHighHalf, decide_eq_false_iff_not]
        omega
      have low : isLowHalf c.toNat = false := by
        simp only [isLowHalf, decide_eq_false_iff_not]
        omega
      have whole : charOfCode c.toNat = c := by simp [charOfCode, high, low, Char.ofNat_toNat]
      simp only [List.singleton_append, joinHalves, high, whole, ih]
      rfl
    · next large =>
      have high : isHighHalf (55296 + (c.toNat - 65536) / 1024) = true := by
        simp only [isHighHalf, decide_eq_true_eq]; omega
      have low : isLowHalf (56320 + (c.toNat - 65536) % 1024) = true := by
        simp only [isLowHalf, decide_eq_true_eq]; omega
      have joined : 65536 + (55296 + (c.toNat - 65536) / 1024 - 55296) * 1024 +
          (56320 + (c.toNat - 65536) % 1024 - 56320) = c.toNat := by omega
      simp only [List.cons_append, List.nil_append, joinHalves, high, low, if_true, joined, ih,
        Char.ofNat_toNat]

/-- A string is read back from its text, whatever follows. -/
theorem readString_stringText (cs rest : List Char) :
    readString (cs.flatMap escapedChar ++ '\x22' :: rest) = .ok (String.ofList cs, rest) := by
  rw [readString, stringCodes_escaped]
  simp only [joinHalves_units]

end Json

end SchemaDrift
