/-!
# Hexadecimal escapes

Escapes write a code as a fixed number of lower-case hexadecimal digits. Reading takes digits of
either case.
-/

namespace SchemaDrift.Text

def hexDigit (n : Nat) : Char := if n < 10 then Char.ofNat (48 + n) else Char.ofNat (87 + n)

/-- The last `width` hexadecimal digits of a number, in front of `rest`. -/
def hexOnto : Nat → Nat → List Char → List Char
  | 0, _, rest => rest
  | width + 1, n, rest => hexOnto width (n / 16) (hexDigit (n % 16) :: rest)

def hex (width n : Nat) : List Char := hexOnto width n []

def hexValue? (c : Char) : Option Nat :=
  if '0' ≤ c ∧ c ≤ '9' then some (c.toNat - 48)
  else if 'a' ≤ c ∧ c ≤ 'f' then some (c.toNat - 87)
  else if 'A' ≤ c ∧ c ≤ 'F' then some (c.toNat - 55)
  else none

example : hex 4 233 = ['0', '0', 'e', '9'] := by decide
example : hexValue? 'f' = some 15 ∧ hexValue? 'F' = some 15 ∧ hexValue? 'g' = none := by decide

end SchemaDrift.Text
