import Mathlib
import SchemaDrift.Proofs.Json.Quoting
import SchemaDrift.Text.Quoted

/-!
# Quoted text can be told apart

The mark that a text is quoted with stands in front of it, and behind it in the only place where it
is not escaped. So quoted text determines the text, and where it ends.

* `Text.hexNumber_hex`: a number is read back from its hexadecimal digits, if they are enough.
* `Text.readQuotedChar_quotedChar`: a character is read back from the way it is written between
  marks.
* `Text.quotedChars_append_inj` says so of quoted text.
-/

namespace SchemaDrift.Text

/-! ## Hexadecimal digits -/

/-- Goes on reading a number with one more hexadecimal digit. -/
def hexStep (n : Nat) (c : Char) : Nat := n * 16 + (hexValue? c).getD 0

def hexNumber (cs : List Char) : Nat := cs.foldl hexStep 0

theorem hexStep_digit (n : Nat) {k : Nat} (h : k < 16) : hexStep n (hexDigit k) = n * 16 + k := by
  rw [hexStep, hexValue?_hexDigit k h, Option.getD_some]

/-- What has been read goes up by as many places as there are digits, and is followed by them. -/
theorem foldl_hexOnto (width n start : Nat) (rest : List Char) :
    (hexOnto width n rest).foldl hexStep start =
      rest.foldl hexStep (start * 16 ^ width + n % 16 ^ width) := by
  induction width generalizing n rest with
  | zero => rw [hexOnto, Nat.pow_zero, Nat.mul_one, Nat.mod_one, Nat.add_zero]
  | succ width ih =>
    have digit : n % 16 < 16 := Nat.mod_lt _ (by decide)
    have split : n % 16 ^ (width + 1) = n % 16 + 16 * (n / 16 % 16 ^ width) := by
      rw [Nat.pow_succ', Nat.mod_mul]
    rw [hexOnto, ih, List.foldl_cons, hexStep_digit _ digit, split]
    congr 1
    rw [Nat.pow_succ, ← Nat.mul_assoc]
    omega

theorem length_hexOnto (width n : Nat) (rest : List Char) :
    (hexOnto width n rest).length = width + rest.length := by
  induction width generalizing n rest with
  | zero => rw [hexOnto, Nat.zero_add]
  | succ width ih =>
    rw [hexOnto, ih, List.length_cons]
    omega

theorem length_hex (width n : Nat) : (hex width n).length = width := length_hexOnto width n []

/-- A number is read back from its hexadecimal digits, if they are enough. -/
theorem hexNumber_hex {width n : Nat} (h : n < 16 ^ width) : hexNumber (hex width n) = n := by
  rw [hexNumber, hex, foldl_hexOnto, Nat.zero_mul, Nat.zero_add, Nat.mod_eq_of_lt h,
    List.foldl_nil]

/-! ## Characters -/

/-- Reads a character that is given by a number of hexadecimal digits. -/
def readCode (width : Nat) (cs : List Char) : Char × List Char :=
  (Char.ofNat (hexNumber (cs.take width)), cs.drop width)

/-- Reads a character behind a backslash. -/
def readEscaped : List Char → Option (Char × List Char)
  | [] => none
  | e :: rest =>
    if e = 't' then some ('\t', rest)
    else if e = 'n' then some ('\n', rest)
    else if e = 'r' then some ('\r', rest)
    else if e = 'x' then some (readCode 2 rest)
    else if e = 'u' then some (readCode 4 rest)
    else if e = 'U' then some (readCode 8 rest)
    else some (e, rest)

def readQuotedChar : List Char → Option (Char × List Char)
  | [] => none
  | c :: rest => if c = '\\' then readEscaped rest else some (c, rest)

theorem readCode_hex (width : Nat) {c : Char} (h : c.toNat < 16 ^ width) (rest : List Char) :
    readCode width (hex width c.toNat ++ rest) = (c, rest) := by
  rw [readCode, List.take_left' (length_hex _ _), List.drop_left' (length_hex _ _),
    hexNumber_hex h, Char.ofNat_toNat]

/-- A mark that text is quoted with. -/
def IsMark (mark : Char) : Prop := mark = singleMark ∨ mark = doubleMark

theorem isMark_markFor (cs : List Char) : IsMark (markFor cs) := by
  unfold markFor
  split
  · exact .inr rfl
  · exact .inl rfl

variable {mark : Char}

/-- A character is read back from the way it is written between marks. -/
theorem readQuotedChar_quotedChar (hmark : IsMark mark) (c : Char) (rest : List Char) :
    readQuotedChar (quotedChar mark c ++ rest) = some (c, rest) := by
  unfold quotedChar
  split
  · next special =>
    rcases special with rfl | rfl
    · rcases hmark with rfl | rfl <;> rfl
    · rfl
  next special =>
  split
  · next tab => rw [tab]; rfl
  split
  · next lineFeed => rw [lineFeed]; rfl
  split
  · next carriageReturn => rw [carriageReturn]; rfl
  split
  · exact if_neg (not_or.mp special).2
  split
  · next small => exact congrArg some (readCode_hex 2 small rest)
  split
  · next medium => exact congrArg some (readCode_hex 4 medium rest)
  · have bound : c.toNat < 16 ^ 8 := lt_trans (Json.toNat_lt c) (by decide)
    exact congrArg some (readCode_hex 8 bound rest)

/-- Between marks the mark is escaped. -/
theorem quotedChar_lead (hmark : IsMark mark) (c : Char) :
    ∃ d ds, quotedChar mark c = d :: ds ∧ d ≠ mark := by
  have backslash : '\\' ≠ mark := by
    rcases hmark with rfl | rfl <;> decide
  unfold quotedChar
  split
  · exact ⟨'\\', _, rfl, backslash⟩
  next special =>
  split
  · exact ⟨'\\', _, rfl, backslash⟩
  split
  · exact ⟨'\\', _, rfl, backslash⟩
  split
  · exact ⟨'\\', _, rfl, backslash⟩
  split
  · exact ⟨c, [], rfl, (not_or.mp special).1⟩
  split
  · exact ⟨'\\', _, rfl, backslash⟩
  split
  · exact ⟨'\\', _, rfl, backslash⟩
  · exact ⟨'\\', _, rfl, backslash⟩

/-! ## Texts -/

theorem quotedChar_ne_mark (hmark : IsMark mark) (c : Char) (more rest : List Char) :
    quotedChar mark c ++ more ≠ mark :: rest := by
  obtain ⟨d, ds, text, different⟩ := quotedChar_lead hmark c
  rw [text, List.cons_append]
  exact fun same => different (List.cons.inj same).1

/-- What stands between two marks ends at the second one. -/
theorem quoted_inj (hmark : IsMark mark) {cs ds r s : List Char}
    (h : cs.flatMap (quotedChar mark) ++ mark :: r = ds.flatMap (quotedChar mark) ++ mark :: s) :
    cs = ds ∧ r = s := by
  induction cs generalizing ds with
  | nil =>
    cases ds with
    | nil => exact ⟨rfl, (List.cons.inj h).2⟩
    | cons d ds =>
      rw [List.flatMap_cons, List.append_assoc] at h
      exact absurd h.symm (quotedChar_ne_mark hmark d _ _)
  | cons c cs ih =>
    cases ds with
    | nil =>
      rw [List.flatMap_cons, List.append_assoc] at h
      exact absurd h (quotedChar_ne_mark hmark c _ _)
    | cons d ds =>
      rw [List.flatMap_cons, List.flatMap_cons, List.append_assoc, List.append_assoc] at h
      have read := congrArg readQuotedChar h
      rw [readQuotedChar_quotedChar hmark, readQuotedChar_quotedChar hmark] at read
      obtain ⟨rfl, more⟩ := Prod.mk.inj (Option.some.inj read)
      obtain ⟨rfl, rest⟩ := ih more
      exact ⟨rfl, rest⟩

/-- Quoted text in front of a rest determines the text and the rest. -/
theorem quotedChars_append_inj {cs ds r s : List Char}
    (h : quotedChars cs ++ r = quotedChars ds ++ s) : cs = ds ∧ r = s := by
  simp only [quotedChars, List.cons_append, List.append_assoc, List.nil_append] at h
  obtain ⟨marks, inner⟩ := List.cons.inj h
  rw [← marks] at inner
  exact quoted_inj (isMark_markFor cs) inner

theorem quotedChars_lead (cs : List Char) :
    ∃ mark more, quotedChars cs = mark :: more ∧ IsMark mark :=
  ⟨_, _, rfl, isMark_markFor cs⟩

end SchemaDrift.Text
